import Mathlib.Tactic.Abel
import WindLtask.Runtime.Standing

/-!
# What a step of the scheduler keeps

Each change of a service, of a worker and of the phase of the owner keeps the
invariant `World.Sound`; the steps are put together from these changes.
-/

namespace WindLtask.Runtime

open Lib

variable {D : Type}

/-! ## Changes of one service -/

/-- What a change of a service may not do. -/
structure Service.Leads (S S' : Service D) : Prop where
  id : S'.id = S.id
  exclusive : S.status = .exclusive → S'.status = .exclusive
  initialized : S.status ≠ .uninitialized → S'.status ≠ .uninitialized
  sane : S.Sane → S'.Sane

namespace Pool

variable {p : Pool D} {id : ℕ} {S S' : Service D} {exclusive : ℕ} {services : ℕ → ℕ}

/-- A pool in which one service has changed. -/
theorem Sound.change (sound : p.Sound exclusive services) {p' : Pool D} (is : p.get id = some S)
    (leads : S.Leads S') (now : p'.get = Function.update p.get id (some S'))
    (same : p'.queueLength = p.queueLength) : p'.Sound exclusive services where
  exclusives := by
    intro e lt
    obtain ⟨T, found, status⟩ := sound.exclusives e lt
    rw [now]
    by_cases at' : services e = id
    · have old : S = T := Option.some.inj (is.symm.trans (at' ▸ found))
      exact ⟨S', by rw [at', Function.update_self], leads.exclusive (old ▸ status)⟩
    · exact ⟨T, by rw [Function.update_of_ne at', found], status⟩
  root := by
    obtain ⟨T, found, status⟩ := sound.root
    rw [now]
    by_cases at' : serviceIdRoot = id
    · have old : S = T := Option.some.inj (is.symm.trans (at' ▸ found))
      exact ⟨S', by rw [at', Function.update_self], leads.initialized (old ▸ status)⟩
    · exact ⟨T, by rw [Function.update_of_ne at', found], status⟩
  sane := by
    intro y T found
    rw [now] at found
    by_cases at' : y = id
    · rw [at', Function.update_self] at found
      exact Option.some.inj found ▸ leads.sane (sound.sane id S is)
    · rw [Function.update_of_ne at'] at found
      exact sound.sane y T found
  room := same ▸ sound.room

/-- A pool from which a service is gone. -/
theorem Sound.delete (sound : p.Sound exclusive services)
    (ordinary : ∀ T, p.get id = some T → T.status ≠ .exclusive) (other : id ≠ serviceIdRoot) :
    (p.delete id).Sound exclusive services where
  exclusives := by
    intro e lt
    obtain ⟨T, found, status⟩ := sound.exclusives e lt
    have at' : services e ≠ id := by
      intro same
      exact ordinary T (same ▸ found) status
    exact ⟨T, by rw [delete_get, Function.update_of_ne at', found], status⟩
  root := by
    obtain ⟨T, found, status⟩ := sound.root
    exact ⟨T, by rw [delete_get, Function.update_of_ne other.symm, found], status⟩
  sane := by
    intro y T found
    rw [delete_get] at found
    by_cases at' : y = id
    · rw [at', Function.update_self] at found
      cases found
    · rw [Function.update_of_ne at'] at found
      exact sound.sane y T found
  room := by simpa using sound.room

/-- A pool with a new service. -/
theorem Sound.new (sound : p.Sound exclusive services) {sid : ℕ} {p' : Pool D}
    (is : p.new sid = some (id, p')) : p'.Sound exclusive services := by
  obtain ⟨-, absent, now, -, same⟩ := new_spec is
  have ne : ∀ y T, p.get y = some T → y ≠ id := by
    rintro y T found rfl
    rw [absent] at found
    cases found
  constructor
  · intro e lt
    obtain ⟨T, found, status⟩ := sound.exclusives e lt
    exact ⟨T, by rw [now, Function.update_of_ne (ne _ T found), found], status⟩
  · obtain ⟨T, found, status⟩ := sound.root
    exact ⟨T, by rw [now, Function.update_of_ne (ne _ T found), found], status⟩
  · intro y T found
    rw [now] at found
    by_cases at' : y = id
    · rw [at', Function.update_self] at found
      exact Option.some.inj found ▸ ⟨fun _ => .inl rfl, by simp [Service.fresh]⟩
    · rw [Function.update_of_ne at'] at found
      exact sound.sane y T found
  · exact same ▸ sound.room

/-! ## The queue of root -/

theorem rootQueue_change {p' : Pool D} (is : p.get id = some S)
    (now : p'.get = Function.update p.get id (some S')) (queued : S'.queued = S.queued) :
    rootQueue p' = rootQueue p := by
  unfold rootQueue
  rw [now]
  by_cases at' : serviceIdRoot = id
  · rw [at', Function.update_self, is]
    simp [queued]
  · rw [Function.update_of_ne at']

theorem rootQueue_other {p' : Pool D} {o : Option (Service D)} (other : id ≠ serviceIdRoot)
    (now : p'.get = Function.update p.get id o) : rootQueue p' = rootQueue p := by
  unfold rootQueue
  rw [now, Function.update_of_ne other.symm]

end Pool

/-! ## Threads and tickets -/

/-- Workers that do not own the schedule, when only their jobs ready or done change. -/
theorem Worker.Fits.of_free {i : ℕ} {worker worker' : Worker}
    (fits : worker.Fits i (none : Option (Phase D))) (stage : worker'.stage = worker.stage)
    (running : worker'.running = worker.running) :
    worker'.Fits i (none : Option (Phase D)) := by
  unfold Worker.Fits at fits ⊢
  rw [stage]
  cases at' : worker.stage <;> simp_all

namespace World

variable {heard hung : Prop} {config : Config} {w w' : World D} {t : Thread} {old new : Phase D}
  {i : ℕ}

/-- The tickets outside one worker. -/
def restTickets (config : Config) (w : World D) (i : ℕ) : Multiset (ℕ × Standing) :=
  slips w.schedule .waiting + w.otherTickets config i + w.ownerTickets +
    slips w.signals .signalled + signalSlips (rootQueue w.pool)

theorem tickets_worker (lt : i < config.worker) :
    w.tickets config = (w.workers i).tickets + w.restTickets config i := by
  unfold tickets restTickets
  rw [workerTickets_eq lt]
  abel

theorem tickets_setWorker (lt : i < config.worker) (worker : Worker) :
    (w.setWorker i worker).tickets config = worker.tickets + w.restTickets config i := by
  unfold tickets restTickets
  rw [setWorker_workerTickets lt]
  change slips w.schedule .waiting + (worker.tickets + w.otherTickets config i) + w.ownerTickets +
    slips w.signals .signalled + signalSlips (rootQueue w.pool) = _
  abel

/-- The tickets outside the owner. -/
def unownedTickets (config : Config) (w : World D) : Multiset (ℕ × Standing) :=
  slips w.schedule .waiting + w.workerTickets config + slips w.signals .signalled +
    signalSlips (rootQueue w.pool)

theorem tickets_owner (is : w.owner = some (t, old)) :
    w.tickets config = old.tickets + w.unownedTickets config := by
  have own : w.ownerTickets = old.tickets := by simp [ownerTickets, is]
  unfold tickets unownedTickets
  rw [own]
  abel

theorem tickets_go : (w.go t new).tickets config = new.tickets + w.unownedTickets config :=
  tickets_owner rfl

theorem checking_owner (is : w.owner = some (t, old)) : w.checking = old.checks := by
  simp [checking, is]

theorem phaseOf_self (is : w.owner = some (t, old)) : w.phaseOf t = some old := by
  simp [phaseOf, is]

theorem phaseOf_other (is : w.owner = some (t, old)) {u : Thread} (other : u ≠ t) :
    w.phaseOf u = none := by
  simp [phaseOf, is, other.symm]

theorem phaseOf_go_other {u : Thread} (other : u ≠ t) : (w.go t new).phaseOf u = none :=
  phaseOf_other rfl other

theorem setWorker_self (worker : Worker) : (w.setWorker i worker).workers i = worker :=
  Function.update_self _ _ _

theorem setWorker_other {j : ℕ} (other : j ≠ i) (worker : Worker) :
    (w.setWorker i worker).workers j = w.workers j :=
  Function.update_of_ne other _ _

/-- A worker that owns the schedule is at its phase. -/
theorem Sound.ownerFits (sound : w.Sound heard hung config) (is : w.owner = some (.worker i, old)) :
    (w.workers i).stage = .owning ∧ old.Fits i (w.workers i) := by
  have fits := sound.workers i (sound.ownerWorker i old is)
  rw [phaseOf_self is] at fits
  unfold Worker.Fits at fits
  cases at' : (w.workers i).stage with
  | owning =>
      simp only [at'] at fits
      obtain ⟨phase, same, right⟩ := fits
      exact ⟨rfl, Option.some.inj same ▸ right⟩
  | _ => simp [at'] at fits

/-- The owner moves on, and changes only jobs that are ready or done. -/
theorem Sound.owner_step (sound : w.Sound heard hung config) (is : w.owner = some (t, old))
    (is' : w'.owner = some (t, new))
    (stands : Ticketed (Tells heard) (Rests hung new.checks) (w'.tickets config) w'.pool.get)
    (pool : w'.pool.Sound config.exclusive w'.services)
    (stage : ∀ j, (w'.workers j).stage = (w.workers j).stage)
    (running : ∀ j, t ≠ .worker j → (w'.workers j).running = (w.workers j).running)
    (fits : ∀ i, t = .worker i → new.Fits i (w'.workers i))
    (turns : ∀ e, t = .exclusive e → new.turns ≤ (w'.exclusives e).sending.length)
    (regular : new.Regular config) :
    w'.Sound heard hung config where
  stands := by rw [checking_owner is']; exact stands
  workers := by
    intro j lt
    by_cases own : t = .worker j
    · subst own
      rw [phaseOf_self is']
      unfold Worker.Fits
      rw [stage j, (sound.ownerFits is).1]
      exact ⟨new, rfl, fits j rfl⟩
    · have free := sound.workers j lt
      rw [phaseOf_other is (Ne.symm own)] at free
      rw [phaseOf_other is' (Ne.symm own)]
      exact free.of_free (stage j) (running j own)
  ownerWorker := by
    intro i phase held
    rw [is', Option.some.injEq] at held
    obtain ⟨rfl, -⟩ := Prod.mk.inj held
    exact sound.ownerWorker i old is
  ownerExclusive := by
    intro e phase held
    rw [is', Option.some.injEq] at held
    obtain ⟨rfl, rfl⟩ := Prod.mk.inj held
    exact ⟨(sound.ownerExclusive e old is).1, turns e rfl⟩
  regular := by
    intro u phase held
    rw [is', Option.some.injEq] at held
    exact (Prod.mk.inj held).2 ▸ regular
  pool := pool

/-- The owner moves on and leaves services and tickets as they are. -/
theorem Sound.advance (sound : w.Sound heard hung config) (is : w.owner = some (t, old))
    (is' : w'.owner = some (t, new)) (checks : new.checks = old.checks)
    (tickets : w'.tickets config = w.tickets config) (pool : w'.pool = w.pool)
    (exclusives : w'.exclusives = w.exclusives)
    (stage : ∀ j, (w'.workers j).stage = (w.workers j).stage)
    (running : ∀ j, t ≠ .worker j → (w'.workers j).running = (w.workers j).running)
    (fits : ∀ i, t = .worker i → new.Fits i (w'.workers i))
    (turns : ∀ e, t = .exclusive e → new.turns ≤ (w.exclusives e).sending.length)
    (regular : new.Regular config) :
    w'.Sound heard hung config := by
  have services : w'.services = w.services := by unfold services; rw [exclusives]
  refine sound.owner_step is is' ?_ ?_ stage running fits (by rwa [exclusives]) regular
  · rw [tickets, pool, checks, ← checking_owner is]
    exact sound.stands
  · rw [pool, services]
    exact sound.pool

/-- A thread that does not own the schedule changes its worker. -/
theorem Sound.worker_step (sound : w.Sound heard hung config) (worker : Worker)
    (lt : i < config.worker)
    (stands : Ticketed (Tells heard) (Rests hung w.checking)
      (worker.tickets + w.restTickets config i) w.pool.get)
    (fits : worker.Fits i (w.phaseOf (.worker i))) :
    (w.setWorker i worker).Sound heard hung config where
  stands := by
    rw [tickets_setWorker lt]
    exact stands
  workers := by
    intro j lt
    by_cases own : j = i
    · subst own
      rw [setWorker_self]
      exact fits
    · rw [setWorker_other own]
      exact sound.workers j lt
  ownerWorker := sound.ownerWorker
  ownerExclusive := sound.ownerExclusive
  regular := sound.regular
  pool := sound.pool

theorem Sound.worker_same (sound : w.Sound heard hung config) (worker : Worker)
    (lt : i < config.worker) (same : worker.tickets = (w.workers i).tickets)
    (fits : worker.Fits i (w.phaseOf (.worker i))) :
    (w.setWorker i worker).Sound heard hung config := by
  refine sound.worker_step worker lt ?_ fits
  rw [same, ← tickets_worker lt]
  exact sound.stands

/-! ## Steps of a worker -/

theorem phaseOf_free (free : w.owner = none) : w.phaseOf t = none := by
  simp [phaseOf, free]

/-- A worker takes over the schedule. -/
theorem Sound.take_over (sound : w.Sound heard hung config) (free : w.owner = none)
    (lt : i < config.worker) (worker : Worker) (owning : worker.stage = .owning)
    (same : worker.tickets = (w.workers i).tickets) (start : new.tickets = 0)
    (checks : new.checks = none) (fits : new.Fits i worker) (regular : new.Regular config) :
    ((w.setWorker i worker).go (.worker i) new).Sound heard hung config where
  regular := by
    intro u phase held
    cases held
    exact regular
  stands := by
    have before : w.ownerTickets = 0 := by simp [ownerTickets, free]
    have none' : w.checking = none := by simp [checking, free]
    have after : ((w.setWorker i worker).go (.worker i) new).tickets config =
        (w.setWorker i worker).tickets config := by
      change slips w.schedule .waiting + (w.setWorker i worker).workerTickets config +
        new.tickets + slips w.signals .signalled + signalSlips (rootQueue w.pool) =
        slips w.schedule .waiting + (w.setWorker i worker).workerTickets config +
        w.ownerTickets + slips w.signals .signalled + signalSlips (rootQueue w.pool)
      rw [start, before]
    rw [after, tickets_setWorker lt, same, ← tickets_worker lt]
    change Ticketed (Tells heard) (Rests hung new.checks) _ w.pool.get
    rw [checks, ← none']
    exact sound.stands
  workers := by
    intro j lt
    by_cases own : j = i
    · subst own
      rw [phaseOf_self rfl]
      change Worker.Fits j _ ((w.setWorker j worker).workers j)
      rw [setWorker_self]
      unfold Worker.Fits
      rw [owning]
      exact ⟨new, rfl, fits⟩
    · have before := sound.workers j lt
      rw [phaseOf_free free] at before
      rw [phaseOf_go_other (by simpa using own)]
      change Worker.Fits j _ ((w.setWorker i worker).workers j)
      rw [setWorker_other own]
      exact before
  ownerWorker := by
    intro k phase held
    obtain ⟨same, -⟩ := Prod.mk.inj (Option.some.inj held)
    exact Thread.worker.inj same ▸ lt
  ownerExclusive := by
    intro e phase held
    cases held
  pool := sound.pool

/-- What the stage of a worker that does not own the schedule tells of it. -/
theorem Sound.free_of_stage (sound : w.Sound heard hung config) (lt : i < config.worker)
    (other : (w.workers i).stage ≠ .owning) : w.phaseOf (.worker i) = none := by
  have fits := sound.workers i lt
  unfold Worker.Fits at fits
  cases at' : (w.workers i).stage <;> simp_all

theorem Sound.running_none (sound : w.Sound heard hung config) (lt : i < config.worker)
    (at' : (w.workers i).stage = .poll ∨ (∃ job, (w.workers i).stage = .loaded job) ∨
      (w.workers i).stage = .idle) : (w.workers i).running = none := by
  have fits := sound.workers i lt
  unfold Worker.Fits at fits
  rcases at' with at' | ⟨job, at'⟩ | at' <;> simp_all

theorem Sound.running_some (sound : w.Sound heard hung config) (lt : i < config.worker)
    (at' : (w.workers i).stage = .taken ∨ (w.workers i).stage = .resumed ∨
      (w.workers i).stage = .completing ∨ (w.workers i).stage = .retry) :
    ∃ id, (w.workers i).running = some id := by
  have fits := sound.workers i lt
  unfold Worker.Fits at fits
  rcases at' with at' | at' | at' | at' <;>
    · simp only [at'] at fits
      exact Option.ne_none_iff_exists'.mp fits.1

/-- A stage at which the worker is busy on its own. -/
theorem Worker.fits_busy {worker : Worker} (some' : worker.running ≠ none)
    (at' : worker.stage = .taken ∨ worker.stage = .resumed ∨ worker.stage = .completing ∨
      worker.stage = .retry) : worker.Fits i (none : Option (Phase D)) := by
  unfold Worker.Fits
  rcases at' with at' | at' | at' | at' <;>
    · rw [at']
      exact ⟨some', rfl⟩

theorem Worker.fits_free {worker : Worker} (none' : worker.running = none)
    (at' : worker.stage = .poll ∨ (∃ job, worker.stage = .loaded job) ∨ worker.stage = .idle) :
    worker.Fits i (none : Option (Phase D)) := by
  unfold Worker.Fits
  rcases at' with at' | ⟨job, at'⟩ | at' <;>
    · rw [at']
      exact ⟨none', rfl⟩

theorem Sound.getJob (sound : w.Sound heard hung config) (lt : i < config.worker)
    (is : w.next config (.getJob i) = some w') : w'.Sound heard hung config := by
  simp only [next, Option.ite_none_right_eq_some] at is
  obtain ⟨at', is⟩ := is
  have none' := sound.running_none lt (.inl at')
  have free := sound.free_of_stage lt (by simp [at'])
  cases ready : (w.workers i).serviceReady with
  | none =>
      simp only [ready, Option.some.injEq] at is
      subst is
      refine sound.worker_same _ lt (by simp [Worker.tickets, none', ready]) ?_
      rw [free]
      exact Worker.fits_free none' (.inr (.inr rfl))
  | some job =>
      simp only [ready, Option.some.injEq] at is
      subst is
      refine sound.worker_same _ lt (by simp [Worker.tickets, none', ready]) ?_
      rw [free]
      exact Worker.fits_free none' (.inr (.inl ⟨job, rfl⟩))

theorem Sound.casJob (sound : w.Sound heard hung config) (lt : i < config.worker)
    (is : w.next config (.casJob i) = some w') : w'.Sound heard hung config := by
  simp only [next] at is
  cases at' : (w.workers i).stage with
  | loaded job =>
      have none' := sound.running_none lt (.inr (.inl ⟨job, at'⟩))
      have free := sound.free_of_stage lt (by simp [at'])
      simp only [at'] at is
      split at is
      · rename_i ready
        cases is
        refine sound.worker_same _ lt ?_ ?_
        · simp [Worker.tickets, none', ready, Stage.standing]
        · rw [free]
          exact Worker.fits_busy (by simp) (.inl rfl)
      · cases is
        refine sound.worker_same _ lt (by simp [Worker.tickets, none']) ?_
        rw [free]
        exact Worker.fits_free none' (.inr (.inr rfl))
  | _ => simp [at'] at is

/-- The ticket of the service of a worker, and the tickets when the worker goes on. -/
theorem tickets_running (lt : i < config.worker) {id : ℕ}
    (running : (w.workers i).running = some id) :
    ∃ others, w.tickets config = (id, (w.workers i).stage.standing) ::ₘ others ∧
      ∀ stage : Stage, Worker.tickets
        { running := some id, serviceReady := (w.workers i).serviceReady
          serviceDone := (w.workers i).serviceDone, stage := stage } + w.restTickets config i =
        (id, stage.standing) ::ₘ others := by
  refine ⟨slip (w.workers i).serviceReady .waiting + slip (w.workers i).serviceDone .ended +
    w.restTickets config i, ?_, ?_⟩
  · rw [tickets_worker lt, Worker.tickets, running, slip_some, ← Multiset.singleton_add]
    abel
  · intro stage
    rw [Worker.tickets, slip_some, ← Multiset.singleton_add]
    abel

/-- A worker goes on with its service, which changes with it. -/
theorem Sound.running_step (sound : w.Sound heard hung config) (lt : i < config.worker) {id : ℕ}
    (running : (w.workers i).running = some id) (free : w.phaseOf (.worker i) = none)
    {S S' : Service D} {p : Pool D} (found : w.pool.get id = some S) (leads : S.Leads S')
    (now : p.get = Function.update w.pool.get id (some S')) (queued : S'.queued = S.queued)
    (same : p.queueLength = w.pool.queueLength) (stage : Stage)
    (told : Tells heard (w.workers i).stage.standing S → Tells heard stage.standing S')
    (fits : Worker.Fits i (none : Option (Phase D))
      { running := some id, serviceReady := (w.workers i).serviceReady
        serviceDone := (w.workers i).serviceDone, stage := stage }) :
    ((w.setPool p).setWorker i
      { running := some id, serviceReady := (w.workers i).serviceReady
        serviceDone := (w.workers i).serviceDone, stage := stage }).Sound heard hung config := by
  obtain ⟨others, before, after⟩ := tickets_running lt running
  have stands := sound.stands
  rw [before] at stands
  obtain ⟨T, found', right⟩ := stands.told
  have old : S = T := Option.some.inj (found.symm.trans found')
  subst old
  have root := Pool.rootQueue_change found now queued
  have rest : (w.setPool p).restTickets config i = w.restTickets config i := by
    change _ + signalSlips (rootQueue p) = _ + signalSlips (rootQueue w.pool)
    rw [root]
    rfl
  constructor
  · rw [tickets_setWorker lt, rest, after]
    change Ticketed (Tells heard) (Rests hung w.checking) _ p.get
    rw [now]
    exact stands.turn (told right)
  · intro j lt
    by_cases own : j = i
    · subst own
      rw [setWorker_self]
      change Worker.Fits j (w.phaseOf (.worker j)) _
      rw [free]
      exact fits
    · rw [setWorker_other own]
      exact sound.workers j lt
  · exact sound.ownerWorker
  · exact sound.ownerExclusive
  · exact sound.regular
  · exact sound.pool.change found leads now same

theorem Sound.start (sound : w.Sound heard hung config) (lt : i < config.worker)
    (is : w.next config (.start i) = some w') : w'.Sound heard hung config := by
  simp only [next] at is
  cases at' : (w.workers i).stage with
  | taken =>
      obtain ⟨id, running⟩ := sound.running_some lt (.inl at')
      have free := sound.free_of_stage lt (by simp [at'])
      obtain ⟨others, before, after⟩ := tickets_running (w := w) lt running
      have stands := sound.stands
      rw [before, at'] at stands
      obtain ⟨S, found, waiting⟩ := stands.told
      simp only [at', running, Pool.statusGet_of_get found] at is
      split at is
      · rename_i dead
        cases is
        refine sound.worker_step _ lt ?_ ?_
        · rw [after]
          refine stands.restand ?_
          intro T found' waiting
          have same : S = T := Option.some.inj (found.symm.trans found')
          subst same
          rcases waiting with ⟨scheduled, -⟩ | dying
          · rw [dead] at scheduled
            cases scheduled
          · exact .inr dying
        · rw [free]
          exact Worker.fits_busy (by simp) (.inr (.inr (.inl rfl)))
      · rename_i alive
        cases is
        have scheduled : S.status = .schedule := by
          rcases waiting with ⟨scheduled, -⟩ | dying
          · exact scheduled
          · exact absurd dying.1 alive
        refine sound.running_step lt running free found ?_ (Pool.statusSet_get found .running) rfl
          (Pool.modify_queueLength _ _ _) .resumed (fun _ => rfl)
          (Worker.fits_busy (by simp) (.inr (.inl rfl)))
        exact ⟨rfl, by simp [scheduled], by simp, fun sane =>
          ⟨fun none' => by simpa [scheduled] using sane.queue none', sane.bounce⟩⟩
  | _ => simp [at'] at is

theorem setWorker_setWorker (worker worker' : Worker) :
    (w.setWorker i worker).setWorker i worker' = w.setWorker i worker' := by
  simp [setWorker]

/-- `worker_complete_job` leaves the service where the scheduler finds it. -/
theorem tickets_completeJob {worker : Worker} (done' : worker.serviceDone = none)
    (ended : worker.stage.standing = .ended) (stage : Stage) :
    Worker.tickets { running := none, serviceReady := worker.serviceReady
                     serviceDone := worker.running, stage := stage } = worker.tickets := by
  simp [Worker.tickets, done', ended]

theorem Sound.complete (sound : w.Sound heard hung config) (lt : i < config.worker)
    (is : w.next config (.complete i) = some w') : w'.Sound heard hung config := by
  simp only [next, Option.ite_none_right_eq_some] at is
  obtain ⟨at', is⟩ := is
  have free := sound.free_of_stage lt (by simp [at'])
  cases done' : (w.workers i).serviceDone with
  | none =>
      simp only [done', Option.some.injEq] at is
      subst is
      simp only [World.completeJob, setWorker_setWorker, setWorker_self]
      refine sound.worker_same _ lt (tickets_completeJob done' (by simp [at', Stage.standing]) _) ?_
      rw [free]
      exact Worker.fits_free rfl (.inl rfl)
  | some job =>
      simp only [done', Option.some.injEq] at is
      subst is
      obtain ⟨id, running⟩ := sound.running_some lt (.inr (.inr (.inl at')))
      refine sound.worker_same _ lt (by simp [Worker.tickets, at', done', Stage.standing]) ?_
      rw [free]
      exact Worker.fits_busy (by simp [running]) (.inr (.inr (.inr rfl)))

theorem Sound.exit (sound : w.Sound heard hung config) (lt : i < config.worker)
    (is : w.next config (.exit i) = some w') : w'.Sound heard hung config := by
  simp only [next, Option.ite_none_right_eq_some] at is
  obtain ⟨⟨at', -⟩, ⟨⟩⟩ := is
  have none' := sound.running_none lt (.inl at')
  have free := sound.free_of_stage lt (by simp [at'])
  refine sound.worker_same _ lt (by simp [Worker.tickets, none']) ?_
  rw [free]
  rfl

theorem Sound.acquire_worker (sound : w.Sound heard hung config) (lt : i < config.worker)
    (is : w.acquire (.worker i) = some w') : w'.Sound heard hung config := by
  simp only [World.acquire] at is
  cases at' : (w.workers i).stage with
  | retry =>
      have free := sound.free_of_stage lt (by simp [at'])
      obtain ⟨id, running⟩ := sound.running_some lt (.inr (.inr (.inr at')))
      cases held : w.owner with
      | none =>
          simp only [at', held, Option.some.injEq] at is
          subst is
          exact sound.take_over held lt _ rfl (by simp [Worker.tickets, at', Stage.standing]) rfl
            rfl (by simp [Phase.Fits, running]) trivial
      | some other =>
          simp only [at', held, Option.some.injEq] at is
          subst is
          refine sound.worker_same _ lt (by simp [Worker.tickets, at', Stage.standing]) ?_
          rw [free]
          exact Worker.fits_busy (by simp [running]) (.inr (.inr (.inl rfl)))
  | idle =>
      have free := sound.free_of_stage lt (by simp [at'])
      have none' := sound.running_none lt (.inr (.inr at'))
      cases held : w.owner with
      | none =>
          simp only [at', held, Option.some.injEq] at is
          subst is
          exact sound.take_over held lt _ rfl (by simp [Worker.tickets, none']) rfl
            rfl (by simp [Phase.Fits, Goal.Fits, none']) trivial
      | some other =>
          simp only [at', held, Option.some.injEq] at is
          subst is
          refine sound.worker_same _ lt (by simp [Worker.tickets, none']) ?_
          rw [free]
          exact Worker.fits_free none' (.inl rfl)
  | _ => simp [at'] at is

/-! ## Steps of an exclusive thread -/

theorem services_setExclusive (e : ℕ) (thread : ExclusiveThread D)
    (same : thread.service = (w.exclusives e).service) :
    (w.setExclusive e thread).services = w.services := by
  funext d
  unfold services setExclusive
  by_cases own : d = e
  · subst own
    simpa using same
  · simp [Function.update_of_ne own]

theorem Sound.setExclusive (sound : w.Sound heard hung config) {e : ℕ} {thread : ExclusiveThread D}
    (same : thread.service = (w.exclusives e).service)
    (turns : ∀ phase, w.owner = some (.exclusive e, phase) →
      phase.turns ≤ thread.sending.length) :
    (w.setExclusive e thread).Sound heard hung config where
  stands := sound.stands
  workers := sound.workers
  ownerWorker := sound.ownerWorker
  ownerExclusive := by
    intro d phase held
    have before := sound.ownerExclusive d phase held
    refine ⟨before.1, ?_⟩
    by_cases own : d = e
    · subst own
      simpa [World.setExclusive] using turns phase held
    · simpa [World.setExclusive, Function.update_of_ne own] using before.2
  regular := sound.regular
  pool := by
    rw [services_setExclusive e thread same]
    exact sound.pool

theorem Sound.acquire_exclusive (sound : w.Sound heard hung config) {e : ℕ}
    (lt : e < config.exclusive) (is : w.acquire (.exclusive e) = some w') : w'.Sound heard hung config := by
  simp only [World.acquire] at is
  cases at' : (w.exclusives e).stage with
  | acquiring out =>
      cases held : w.owner with
      | none =>
          simp only [at', held, Option.some.injEq] at is
          subst is
          have start : (exclusiveMessage out).tickets = 0 ∧ (exclusiveMessage out).checks = none ∧
              (exclusiveMessage out).turns = 0 := by
            cases out <;> exact ⟨rfl, rfl, rfl⟩
          have before : w.ownerTickets = 0 := by simp [ownerTickets, held]
          have none' : w.checking = none := by simp [checking, held]
          have same : w.tickets config = slips w.schedule .waiting + w.workerTickets config +
              (exclusiveMessage out).tickets + slips w.signals .signalled +
              signalSlips (rootQueue w.pool) := by
            rw [start.1, ← before]
            rfl
          constructor
          · have stands := sound.stands
            rw [same, none', ← start.2.1] at stands
            exact stands
          · intro j lt
            have free := sound.workers j lt
            rw [phaseOf_free held] at free
            rw [phaseOf_go_other (by simp)]
            exact free
          · intro j phase owner
            cases owner
          · intro d phase owner
            cases owner
            exact ⟨lt, by rw [start.2.2]; exact Nat.zero_le _⟩
          · intro u phase owner
            cases owner
            cases out <;> trivial
          · have services := services_setExclusive (w := w) e
              { w.exclusives e with stage := .owning } rfl
            change w.pool.Sound config.exclusive
              (w.setExclusive e { w.exclusives e with stage := .owning }).services
            rw [services]
            exact sound.pool
      | some other => simp [at', held] at is
  | _ => simp [at'] at is

/-! ## Calls of a service -/

/-- The service that a thread is running is running, or exclusive. -/
theorem Sound.active (sound : w.Sound heard hung config) (exists' : t.Exists config) {id : ℕ}
    (runs : w.runs t = some id) :
    ∃ S, w.pool.get id = some S ∧
      (S.status = .running ∨ S.status = .done ∨ S.status = .exclusive) := by
  cases t with
  | worker i =>
      simp only [World.runs, Option.ite_none_right_eq_some] at runs
      obtain ⟨others, before, -⟩ := tickets_running exists' runs.2
      have stands := sound.stands
      rw [before, runs.1] at stands
      obtain ⟨S, found, running⟩ := stands.told
      exact ⟨S, found, .inl running⟩
  | exclusive e =>
      simp only [World.runs] at runs
      split at runs
      · cases runs
        obtain ⟨S, found, status⟩ := sound.pool.exclusives e exists'
        exact ⟨S, found, .inr (.inr status)⟩
      · cases runs

/-- What an active service may do with itself. -/
theorem Tells.of_active {S S' : Service D}
    (active : S.status = .running ∨ S.status = .done ∨ S.status = .exclusive)
    (status : S'.status = S.status) {k : Standing} (told : Tells heard k S) :
    Tells heard k S' := by
  cases k <;> rcases active with active | active | active <;>
    simp_all [Tells, Service.Dying]

theorem Rests.of_active {S S' : Service D}
    (active : S.status = .running ∨ S.status = .done ∨ S.status = .exclusive)
    (status : S'.status = S.status) {checking : Option ℕ} {id : ℕ}
    (rests : Rests hung checking id S) : Rests hung checking id S' := by
  rcases active with active | active | active <;> simp_all [Rests]

theorem touch_active {tickets : Multiset (ℕ × Standing)} {state : ℕ → Option (Service D)}
    {checking : Option ℕ} {id : ℕ} {S S' : Service D}
    (stands : Ticketed (Tells heard) (Rests hung checking) tickets state)
    (found : state id = some S)
    (active : S.status = .running ∨ S.status = .done ∨ S.status = .exclusive)
    (status : S'.status = S.status) : Ticketed (Tells heard) (Rests hung checking) tickets
      (Function.update state id (some S')) :=
  stands.touch found (fun _ => Tells.of_active active status) (Rests.of_active active status)
    fun _ _ _ rests => rests

/-- An active service changes, with the signals that it has received. -/
theorem Sound.active_step (sound : w.Sound heard hung config) {id : ℕ} {S S' : Service D}
    {p : Pool D} (found : w.pool.get id = some S)
    (active : S.status = .running ∨ S.status = .done ∨ S.status = .exclusive)
    (now : p.get = Function.update w.pool.get id (some S')) (status : S'.status = S.status)
    (leads : S.Leads S') (same : p.queueLength = w.pool.queueLength) {signals : List ℕ}
    (slips' : slips signals .signalled + signalSlips (rootQueue p) =
      slips w.signals .signalled + signalSlips (rootQueue w.pool)) :
    ({ w.setPool p with signals := signals } : World D).Sound heard hung config where
  stands := by
    have tickets' : ({ w.setPool p with signals := signals } : World D).tickets config =
        w.tickets config := by
      change slips w.schedule .waiting + w.workerTickets config + w.ownerTickets +
        slips signals .signalled + signalSlips (rootQueue p) = _
      rw [add_assoc, slips', ← add_assoc]
      rfl
    rw [tickets']
    change Ticketed (Tells heard) (Rests hung w.checking) _ p.get
    rw [now]
    exact touch_active sound.stands found active status
  workers := sound.workers
  ownerWorker := sound.ownerWorker
  ownerExclusive := sound.ownerExclusive
  regular := sound.regular
  pool := sound.pool.change found leads now same

theorem signalSlips_cons (m : Message D) (queue : List (Message D)) :
    signalSlips (m :: queue) =
      (if m.type = messageSignal then {(m.from', Standing.signalled)} else 0) +
        signalSlips queue := by
  unfold signalSlips
  by_cases signal : m.type = messageSignal <;> simp [signal]

theorem rootQueue_of_get {p : Pool D} {S : Service D} (found : p.get serviceIdRoot = some S) :
    rootQueue p = S.queued := by
  simp [rootQueue, found]

theorem Sound.recv (sound : w.Sound heard hung config) (exists' : t.Exists config) {id : ℕ}
    (runs : w.runs t = some id) (is : w.call config t id .recv = some w') :
    w'.Sound heard hung config := by
  obtain ⟨S, found, active⟩ := sound.active exists' runs
  have sane := sound.pool.sane id S found
  simp only [World.call] at is
  cases bounce : S.bounce with
  | some m =>
      have popped : w.pool.popMessage id =
          some (m, false, w.pool.modify id fun S => { S with bounce := none }) := by
        simp [Pool.popMessage, found, bounce]
      simp only [popped, sane.bounce m bounce, and_false, if_false, Option.some.injEq] at is
      subst is
      have now := Pool.modify_get (f := fun S => { S with bounce := none }) (fun _ => rfl) found
      refine sound.active_step found active now rfl ⟨rfl, fun h => h, fun h => h, ?_⟩
        (Pool.modify_queueLength _ _ _) ?_
      · exact fun sane => ⟨sane.queue, by simp⟩
      · rw [Pool.rootQueue_change found now rfl]
  | none =>
      cases queued : S.queued with
      | nil =>
          have popped : w.pool.popMessage id = none := by
            simp [Pool.popMessage, found, bounce, queued]
          simp only [popped, Option.some.injEq] at is
          exact is ▸ sound
      | cons m rest =>
          have popped : w.pool.popMessage id =
              some (m, true, w.pool.modify id fun S => { S with msg := some rest }) := by
            simp [Pool.popMessage, found, bounce, queued]
          simp only [popped] at is
          have now := Pool.modify_get (f := fun S => { S with msg := some rest }) (fun _ => rfl)
            found
          have leads : S.Leads { S with msg := some rest } :=
            ⟨rfl, fun h => h, fun h => h, fun sane => ⟨by simp, sane.bounce⟩⟩
          have long := Pool.modify_queueLength w.pool id fun S => { S with msg := some rest }
          by_cases root : id = serviceIdRoot
          · subst root
            have before := rootQueue_of_get found
            have after : rootQueue (w.pool.modify serviceIdRoot
                fun S => { S with msg := some rest }) = rest := by
              simp [rootQueue, now, Service.queued]
            by_cases signal : m.type = messageSignal
            · simp only [signal, and_self, if_true, Option.some.injEq] at is
              subst is
              refine sound.active_step found active now rfl leads long ?_
              rw [after, before, queued, signalSlips_cons, if_pos signal, slips_cons]
              abel
            · simp only [signal, and_false, if_false, Option.some.injEq] at is
              subst is
              refine sound.active_step found active now rfl leads long ?_
              rw [after, before, queued, signalSlips_cons, if_neg signal, zero_add]
          · simp only [root, false_and, if_false, Option.some.injEq] at is
            subst is
            refine sound.active_step found active now rfl leads long ?_
            rw [Pool.rootQueue_other root now]

theorem Sound.receipt (sound : w.Sound heard hung config) (exists' : t.Exists config) {id : ℕ}
    (runs : w.runs t = some id) (is : w.call config t id .receipt = some w') :
    w'.Sound heard hung config := by
  obtain ⟨S, found, active⟩ := sound.active exists' runs
  simp only [World.call, Option.some.injEq] at is
  subst is
  have now := Pool.readReceipt_get found
  refine sound.active_step found active now rfl ⟨rfl, fun h => h, fun h => h, ?_⟩
    (Pool.modify_queueLength _ _ _) ?_
  · exact fun sane => ⟨sane.queue, by simp⟩
  · rw [Pool.rootQueue_change found now rfl]

theorem Sound.send (sound : w.Sound heard hung config) (exists' : t.Exists config) {id : ℕ}
    {m : Message D} (runs : w.runs t = some id) (is : w.call config t id (.send m) = some w') :
    w'.Sound heard hung config := by
  obtain ⟨S, found, active⟩ := sound.active exists' runs
  simp only [World.call, Pool.sendMessage, found] at is
  by_cases empty : S.out = none
  · simp only [empty, if_true, Option.some.injEq] at is
    subst is
    have now := Pool.modify_get (f := fun S => { S with out := some { m with from' := id } })
      (fun _ => rfl) found
    refine sound.active_step found active now rfl ⟨rfl, fun h => h, fun h => h, ?_⟩
      (Pool.modify_queueLength _ _ _) ?_
    · exact fun sane => ⟨sane.queue, sane.bounce⟩
    · rw [Pool.rootQueue_change found now rfl]
  · simp only [empty, if_false, Option.some.injEq] at is
    exact is ▸ sound

theorem Sound.post (sound : w.Sound heard hung config) {id : ℕ} {m : Message D}
    (is : w.call config t id (.post m) = some w') : w'.Sound heard hung config := by
  cases t with
  | worker i => simp [World.call] at is
  | exclusive e =>
      simp only [World.call] at is
      split at is
      · cases is
        refine sound.setExclusive rfl ?_
        intro phase held
        have turns := (sound.ownerExclusive e phase held).2
        rw [List.length_append]
        exact Nat.le_add_right_of_le turns
      · cases is
        exact sound

/-- A service that is not initialised, idle or exclusive has no ticket. -/
theorem Sound.ticketless (sound : w.Sound heard hung config) {id : ℕ} {S : Service D}
    (found : w.pool.get id = some S)
    (status : S.status = .uninitialized ∨ S.status = .idle ∨ S.status = .exclusive) :
    id ∉ (w.tickets config).map Prod.fst := by
  intro member
  obtain ⟨⟨id', k⟩, ticket, rfl⟩ := Multiset.mem_map.mp member
  obtain ⟨T, found', told⟩ := sound.stands.held id' k ticket
  have same : S = T := Option.some.inj (found.symm.trans found')
  subst same
  cases k <;> rcases status with status | status | status <;>
    simp_all [Tells, Service.Dying]

theorem Sound.init (sound : w.Sound heard hung config) {id sid : ℕ} {ok : Bool}
    (is : w.call config t id (.init sid ok) = some w') : w'.Sound heard hung config := by
  simp only [World.call, Option.ite_none_right_eq_some] at is
  obtain ⟨⟨-, fresh⟩, is⟩ := is
  obtain ⟨S, found, status⟩ := Option.map_eq_some_iff.mp fresh
  have absent := sound.ticketless found (.inl status)
  have other : sid ≠ serviceIdRoot := by
    rintro rfl
    obtain ⟨R, foundR, initialized⟩ := sound.pool.root
    have same : S = R := Option.some.inj (found.symm.trans foundR)
    exact initialized (same ▸ status)
  have rests := sound.stands.free sid S found absent
  simp only [Rests, status] at rests
  cases ok with
  | true =>
      simp only [if_true, Option.some.injEq] at is
      subst is
      have now := Pool.modify_get
        (f := fun S => { S with msg := some [], status := .idle }) (fun _ => rfl) found
      have leads : S.Leads { S with msg := some [], status := .idle } :=
        ⟨rfl, by simp [status], by simp, fun sane => ⟨by simp, sane.bounce⟩⟩
      refine ⟨?_, sound.workers, sound.ownerWorker, sound.ownerExclusive, sound.regular,
        sound.pool.change found leads now (Pool.modify_queueLength _ _ _)⟩
      rw [tickets_eq]
      change Ticketed _ (Rests hung w.checking) (w.placed config + signalSlips (rootQueue
        (w.pool.modify sid fun S => { S with msg := some [], status := .idle }))) (Pool.get
        (w.pool.modify sid fun S => { S with msg := some [], status := .idle }))
      rw [Pool.rootQueue_other other now, ← tickets_eq, now]
      refine sound.stands.touch found ?_ ?_ fun _ _ _ rests => rests
      · intro k told
        cases k <;> simp_all [Tells, Service.Dying]
      · intro _
        simp [Rests, rests, Service.queued]
  | false =>
      simp only [Bool.false_eq_true, if_false, Option.some.injEq] at is
      subst is
      refine ⟨?_, sound.workers, sound.ownerWorker, sound.ownerExclusive, sound.regular,
        sound.pool.delete ?_ other⟩
      · rw [tickets_eq]
        change Ticketed _ (Rests hung w.checking) (w.placed config + signalSlips (rootQueue
          (w.pool.delete sid))) (w.pool.delete sid).get
        rw [Pool.rootQueue_other other Pool.delete_get, ← tickets_eq, Pool.delete_get]
        exact sound.stands.remove absent
      · intro T found'
        have same : S = T := Option.some.inj (found.symm.trans found')
        simp [← same, status]

theorem delete_absent {p : Pool D} {id : ℕ} (absent : p.get id = none) : p.delete id = p := by
  simp [Pool.delete, absent]

/-- Root closes services whose signal it has received, and services that are not there. -/
theorem Sound.close (sound : w.Sound heard hung config) {id sid : ℕ}
    (signalled : w.pool.statusGet sid = .dead → w.pool.get sid = none ∨ sid ∈ w.signals)
    (is : w.call config t id (.close sid) = some w') : w'.Sound heard hung config := by
  simp only [World.call, Option.ite_none_right_eq_some] at is
  obtain ⟨-, is⟩ := is
  by_cases dead : w.pool.statusGet sid = .dead
  · simp only [dead, if_true, Option.some.injEq] at is
    subst is
    rcases signalled dead with absent | member
    · have outside : sid ∉ w.signals := by
        intro member
        have ticket : (sid, Standing.signalled) ∈ w.tickets config := by
          have own : (sid, Standing.signalled) ∈ slips w.signals .signalled :=
            Multiset.mem_map_of_mem _ member
          exact Multiset.mem_add.mpr (.inl (Multiset.mem_add.mpr (.inr own)))
        obtain ⟨S, found, -⟩ := sound.stands.held _ _ ticket
        rw [absent] at found
        cases found
      rw [delete_absent absent, List.erase_of_not_mem outside]
      exact sound
    · have split' : slips w.signals .signalled =
          {(sid, Standing.signalled)} + slips (w.signals.erase sid) .signalled := by
        rw [← slips_cons]
        unfold slips
        rw [Multiset.coe_eq_coe.mpr (List.perm_cons_erase member)]
      have before : w.tickets config = (sid, Standing.signalled) ::ₘ
          (slips w.schedule .waiting + w.workerTickets config + w.ownerTickets +
            slips (w.signals.erase sid) .signalled + signalSlips (rootQueue w.pool)) := by
        rw [tickets, split', ← Multiset.singleton_add]
        abel
      have stands := sound.stands
      rw [before] at stands
      obtain ⟨S, found, status, other⟩ := stands.told
      rw [Pool.id_of_get found] at other
      refine ⟨?_, sound.workers, sound.ownerWorker, sound.ownerExclusive, sound.regular,
        sound.pool.delete ?_ other⟩
      · change Ticketed _ (Rests hung w.checking) (slips w.schedule .waiting +
          w.workerTickets config + w.ownerTickets + slips (w.signals.erase sid) .signalled +
          signalSlips (rootQueue (w.pool.delete sid))) (w.pool.delete sid).get
        rw [Pool.rootQueue_other other Pool.delete_get, Pool.delete_get]
        exact stands.retire
      · intro T found'
        have same : S = T := Option.some.inj (found.symm.trans found')
        simp [← same, status]
  · simp only [dead, if_false, Option.some.injEq] at is
    exact is ▸ sound

theorem Sound.resumed_running (sound : w.Sound heard hung config) (lt : i < config.worker) {id : ℕ}
    (at' : (w.workers i).stage = .resumed) (running : (w.workers i).running = some id)
    {S : Service D} (found : w.pool.get id = some S) : S.status = .running := by
  obtain ⟨others, before, -⟩ := tickets_running lt running
  have stands := sound.stands
  rw [before, at'] at stands
  obtain ⟨T, found', told⟩ := stands.told
  have same : S = T := Option.some.inj (found.symm.trans found')
  exact same ▸ told

/-- A service that was running changes its status. -/
theorem Service.leads_status {S : Service D} (running : S.status = .running) {status : Status}
    (initialized : status ≠ .uninitialized) (out : Option (Message D)) :
    S.Leads { S with status := status, out := out } :=
  ⟨rfl, by simp [running], fun _ => initialized, fun sane =>
    ⟨fun none' => by simpa [running] using sane.queue none', sane.bounce⟩⟩

theorem Sound.yield (sound : w.Sound heard hung config) (exists' : t.Exists config) {id : ℕ}
    (runs : w.runs t = some id) (is : w.call config t id .yield = some w') :
    w'.Sound heard hung config := by
  obtain ⟨S, found, active⟩ := sound.active exists' runs
  cases t with
  | worker i =>
      simp only [World.runs, Option.ite_none_right_eq_some] at runs
      obtain ⟨at', running⟩ := runs
      have free := sound.free_of_stage exists' (by simp [at'])
      simp only [World.call, running, Option.some.injEq] at is
      subst is
      have resumed := sound.resumed_running exists' at' running found
      exact sound.running_step exists' running free found
        (Service.leads_status resumed (by simp) S.out) (Pool.statusSet_get found .done) rfl
        (Pool.modify_queueLength _ _ _) .completing (fun _ => .inl rfl)
        (Worker.fits_busy (by simp) (.inr (.inr (.inl rfl))))
  | exclusive e =>
      simp only [World.call] at is
      split at is
      · cases is
        have now := Pool.takeOut_get found
        have taken := sound.active_step found active now rfl
          ⟨rfl, fun h => h, fun h => h, fun sane => ⟨sane.queue, sane.bounce⟩⟩
          (Pool.modify_queueLength _ _ _) 
          (by rw [Pool.rootQueue_change found now rfl])
        exact taken.setExclusive rfl fun phase held => (taken.ownerExclusive e phase held).2
      · cases is
        exact sound

theorem Sound.quit (sound : w.Sound heard hung config) (exists' : t.Exists config) {id : ℕ}
    (runs : w.runs t = some id) (is : w.call config t id .quit = some w') :
    w'.Sound heard hung config := by
  obtain ⟨S, found, active⟩ := sound.active exists' runs
  cases t with
  | worker i =>
      simp only [World.runs, Option.ite_none_right_eq_some] at runs
      obtain ⟨at', running⟩ := runs
      have free := sound.free_of_stage exists' (by simp [at'])
      have resumed := sound.resumed_running exists' at' running found
      have dead := Pool.statusSet_get found .dead
      simp only [World.call, running] at is
      by_cases root : id = serviceIdRoot
      · simp only [root, if_true, Option.some.injEq] at is
        subst is
        have after := sound.running_step exists' running free found
          (Service.leads_status resumed (by simp) S.out) dead rfl
          (Pool.modify_queueLength _ _ _) .quit (fun _ => rfl) rfl
        subst root
        exact ⟨after.stands, after.workers, after.ownerWorker, after.ownerExclusive,
          after.regular, after.pool⟩
      · simp only [root, if_false, Option.some.injEq] at is
        subst is
        have found' : (w.pool.statusSet id .dead).get id = some { S with status := .dead } := by
          rw [dead, Function.update_self]
        have now := Pool.sendSignal_get found'
        rw [dead, Function.update_idem] at now
        have idS := Pool.id_of_get found
        exact sound.running_step exists' running free found
          (Service.leads_status resumed (by simp) (some (signalOf id))) now rfl
          ((Pool.modify_queueLength _ _ _).trans (Pool.modify_queueLength _ _ _)) .completing
          (fun _ => .inr ⟨rfl, by simpa [idS] using root, by simp [idS]⟩)
          (Worker.fits_busy (by simp) (.inr (.inr (.inl rfl))))
  | exclusive e =>
      simp only [World.call, Option.some.injEq] at is
      subst is
      exact sound.setExclusive rfl fun phase held => (sound.ownerExclusive e phase held).2

end World

end WindLtask.Runtime
