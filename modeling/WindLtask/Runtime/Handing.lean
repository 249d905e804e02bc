import WindLtask.Runtime.Dispatch

/-!
# What a step of the scheduler keeps

The rest of the steps of the owner: collecting, handing out and stealing of jobs, and
the queue of an exclusive thread.  Every step of a disciplined run keeps the
invariant.
-/

namespace WindLtask.Runtime

open Lib

variable {D : Type}

namespace World

variable {heard hung : Prop} {config : Config} {w w' : World D} {t : Thread} {i : ℕ}

theorem Goal.fits_of_running {goal : Goal} {worker worker' : Worker}
    (same : worker'.running = worker.running) (fits : goal.Fits worker) : goal.Fits worker' := by
  cases goal <;> simp_all [Goal.Fits]

/-- Step 1 of `schedule_dispatch` at one worker. -/
theorem Sound.collect (sound : w.Sound heard hung config) {goal : Goal} {k : ℕ} {doneJob : List ℕ}
    (is : w.owner = some (t, .collect goal k doneJob))
    (next : w.ownerStep config t (.collect goal k doneJob) = some w') :
    w'.Sound heard hung config ∧ w'.failed = w.failed := by
  simp only [World.ownerStep, Option.some.injEq] at next
  by_cases lt : k < config.worker
  · rw [if_pos lt] at next
    cases done' : (w.workers k).serviceDone with
    | some job =>
        simp only [done'] at next
        subst next
        refine ⟨?_, rfl⟩
        refine sound.handOver is lt rfl (fun _ => rfl) ?_ rfl ?_ (fun _ _ => Nat.zero_le _) trivial
        · simp only [Phase.tickets, Worker.tickets, done', slips_append, slips_cons, slips_nil,
            slip_some, slip_none]
          abel
        · rintro i rfl
          obtain ⟨goalFits, cleared⟩ := (sound.ownerFits is).2
          by_cases own : i = k
          · subst own
            rw [setWorker_self]
            exact ⟨Goal.fits_of_running rfl goalFits, fun _ _ => rfl⟩
          · rw [setWorker_other own]
            exact ⟨goalFits, fun again lt => cleared again (by omega)⟩
    | none =>
        simp only [done'] at next
        subst next
        refine ⟨?_, rfl⟩
        refine sound.go_on is rfl rfl ?_ (fun _ _ => Nat.zero_le _) trivial
        rintro i rfl
        obtain ⟨goalFits, cleared⟩ := (sound.ownerFits is).2
        refine ⟨goalFits, fun again lt => ?_⟩
        rcases Nat.lt_succ_iff_lt_or_eq.mp lt with lt | rfl
        · exact cleared again lt
        · exact done'
  · rw [if_neg lt] at next
    subst next
    refine ⟨?_, rfl⟩
    refine sound.go_on is rfl rfl ?_ (fun _ _ => Nat.zero_le _) trivial
    rintro i rfl
    obtain ⟨goalFits, cleared⟩ := (sound.ownerFits is).2
    have exists' := sound.ownerWorker i _ is
    exact ⟨goalFits, fun again => cleared again (by omega)⟩

/-- A worker that owns the schedule completes its job. -/
theorem Sound.ownerComplete (sound : w.Sound heard hung config) {old : Phase D}
    (is : w.owner = some (.worker i, old)) (plain : old.tickets = 0) (quiet : old.checks = none)
    (done' : (w.workers i).serviceDone = none) :
    ((w.completeJob i).go (.worker i) (.collect .worker 0 [])).Sound heard hung config := by
  have owning := (sound.ownerFits is).1
  refine sound.handOver is (sound.ownerWorker i old is) rfl (fun other => absurd rfl other) ?_
    quiet.symm ?_ (fun _ _ => Nat.zero_le _) trivial
  · simp [Phase.tickets, plain, Worker.tickets, done', owning, Stage.standing]
  · rintro j ⟨⟩
    rw [setWorker_self]
    exact ⟨rfl, by simp⟩

theorem Sound.secondComplete (sound : w.Sound heard hung config)
    (is : w.owner = some (.worker i, .secondComplete))
    (next : w.ownerStep config (.worker i) .secondComplete = some w') :
    w'.Sound heard hung config ∧ w'.failed = w.failed := by
  simp only [World.ownerStep, Option.some.injEq] at next
  cases done' : (w.workers i).serviceDone with
  | none =>
      simp only [done'] at next
      subst next
      exact ⟨sound.ownerComplete is rfl rfl done', rfl⟩
  | some job =>
      simp only [done'] at next
      subst next
      refine ⟨?_, rfl⟩
      refine sound.go_on is rfl rfl ?_ (fun _ _ => Nat.zero_le _) trivial
      rintro j ⟨⟩
      exact ⟨(sound.ownerFits is).2, fun _ lt => absurd lt (Nat.not_lt_zero _)⟩

/-- The scheduler has emptied `service_done` of the worker that it runs on. -/
theorem Sound.selfComplete (sound : w.Sound heard hung config)
    (is : w.owner = some (.worker i, .selfComplete))
    (next : w.ownerStep config (.worker i) .selfComplete = some w') :
    w'.Sound heard hung config ∧ w'.failed = w.failed := by
  have done' : (w.workers i).serviceDone = none := (sound.ownerFits is).2.2
  simp only [World.ownerStep, done', Option.some.injEq] at next
  subst next
  exact ⟨sound.ownerComplete is rfl rfl done', rfl⟩

theorem afterSchedule_fits {goal : Goal} {worker : Worker} (fits : goal.Fits worker)
    (cleared : goal = .again → worker.serviceDone = none) :
    (afterSchedule goal : Phase D).Fits i worker := by
  cases goal with
  | again => exact ⟨fits, cleared rfl⟩
  | worker => exact fits
  | exclusive => exact fits.elim

theorem afterSchedule_plain (config : Config) (goal : Goal) :
    (afterSchedule goal : Phase D).tickets = 0 ∧
    (afterSchedule goal : Phase D).checks = none ∧ (afterSchedule goal : Phase D).turns = 0 ∧
    (afterSchedule goal : Phase D).Regular config := by
  cases goal <;> exact ⟨rfl, rfl, rfl, trivial⟩

/-- The schedule and the owner change their tickets together. -/
theorem Sound.reschedule (sound : w.Sound heard hung config) {old new : Phase D}
    (is : w.owner = some (t, old)) {schedule : List ℕ}
    (moved : new.tickets + slips schedule .waiting = old.tickets + slips w.schedule .waiting)
    (checks : new.checks = old.checks)
    (fits : ∀ i, t = .worker i → new.Fits i (w.workers i))
    (turns : ∀ e, t = .exclusive e → new.turns ≤ (w.exclusives e).sending.length)
    (regular : new.Regular config) :
    ((w.setSchedule schedule).go t new).Sound heard hung config := by
  refine sound.advance is rfl checks ?_ rfl rfl (fun _ => rfl) (fun _ _ => rfl) fits turns regular
  rw [tickets_owner is, tickets_go]
  change new.tickets + (slips schedule .waiting + w.workerTickets config +
    slips w.signals .signalled + signalSlips (rootQueue w.pool)) = _
  unfold unownedTickets
  rw [← add_assoc, ← add_assoc, ← add_assoc, moved]
  abel

/-- Step 3 of `schedule_dispatch` at one worker. -/
theorem Sound.assign (sound : w.Sound heard hung config) (exclusive : 0 < config.exclusive)
    {goal : Goal} {k : ℕ} {job : Option ℕ} (is : w.owner = some (t, .assign goal k job))
    (next : w.ownerStep config t (.assign goal k job) = some w') :
    w'.Sound heard hung config ∧ w'.failed = w.failed := by
  have fits : ∀ i, t = .worker i → (goal.Fits (w.workers i) ∧
      (goal = .again → (w.workers i).serviceDone = none)) := by
    rintro i rfl
    exact (sound.ownerFits is).2
  obtain ⟨plain, quiet, turns, regular⟩ := afterSchedule_plain (D := D) config goal
  have after : ∀ i, t = .worker i → (afterSchedule goal : Phase D).Fits i (w.workers i) :=
    fun i own => afterSchedule_fits (fits i own).1 (fits i own).2
  have noTurns : ∀ e, t = .exclusive e →
      (afterSchedule goal : Phase D).turns ≤ (w.exclusives e).sending.length :=
    fun e _ => turns ▸ Nat.zero_le _
  simp only [World.ownerStep, Option.some.injEq] at next
  by_cases lt : k < config.worker
  · rw [if_pos lt] at next
    cases job with
    | none =>
        cases schedule : w.schedule with
        | nil =>
            simp only [schedule] at next
            subst next
            exact ⟨sound.go_on is plain quiet after noTurns regular, rfl⟩
        | cons job rest =>
            simp only [schedule] at next
            subst next
            refine ⟨?_, rfl⟩
            refine sound.reschedule is ?_ rfl fits (fun _ _ => Nat.zero_le _) trivial
            rw [schedule, slips_cons]
            simp only [Phase.tickets, slip_some, slip_none]
            abel
    | some job =>
        cases ready : (w.workers k).serviceReady with
        | none =>
            simp only [ready] at next
            subst next
            refine ⟨?_, rfl⟩
            refine sound.handOver is lt rfl (fun _ => rfl) ?_ rfl ?_ (fun _ _ => Nat.zero_le _)
              trivial
            · simp only [Phase.tickets, Worker.tickets, ready, slip_some, slip_none]
              abel
            · intro i own
              by_cases same : i = k
              · subst same
                rw [setWorker_self]
                exact ⟨Goal.fits_of_running rfl (fits i own).1, (fits i own).2⟩
              · rw [setWorker_other same]
                exact fits i own
        | some other =>
            simp only [ready] at next
            subst next
            exact ⟨sound.go_on is rfl rfl fits (fun _ _ => Nat.zero_le _) trivial, rfl⟩
  · rw [if_neg lt] at next
    cases job with
    | none =>
        simp only at next
        subst next
        exact ⟨sound.go_on is plain quiet after noTurns regular, rfl⟩
    | some job =>
        obtain ⟨split', S, found, told⟩ := sound.told_owner is (add_zero _).symm
        have stands := sound.stands
        rw [split'] at stands
        have outside : job ∉ w.schedule :=
          absent_of_other stands.other (unowned_split _)
        have ordinary : S.status ≠ .exclusive := by
          rcases told with ⟨scheduled, -⟩ | dying
          · simp [scheduled]
          · simp [dying.1]
        have room := sound.scheduleRoom exclusive found ordinary outside
        simp only [room, if_true] at next
        subst next
        refine ⟨?_, rfl⟩
        refine sound.reschedule is ?_ quiet after noTurns regular
        rw [plain, slips_append, slips_cons, slips_nil]
        simp only [Phase.tickets, slip_some]
        abel

theorem Sound.hasJob (sound : w.Sound heard hung config) (is : w.owner = some (.worker i, .hasJob))
    (next : w.ownerStep config (.worker i) .hasJob = some w') :
    w'.Sound heard hung config ∧ w'.failed = w.failed := by
  have idle := (sound.ownerFits is).2
  simp only [World.ownerStep, Option.some.injEq] at next
  subst next
  refine ⟨?_, rfl⟩
  by_cases ready : (w.workers i).serviceReady = none
  · rw [if_pos ready]
    refine sound.go_on is rfl rfl ?_ (fun _ _ => Nat.zero_le _) trivial
    rintro j ⟨⟩
    exact ⟨idle, ready⟩
  · rw [if_neg ready]
    refine sound.go_on is rfl rfl ?_ (fun _ _ => Nat.zero_le _) trivial
    rintro j ⟨⟩
    exact idle

/-- `steal_job` at one worker. -/
theorem Sound.steal (sound : w.Sound heard hung config) {k : ℕ}
    (is : w.owner = some (.worker i, .steal k))
    (next : w.ownerStep config (.worker i) (.steal k) = some w') :
    w'.Sound heard hung config ∧ w'.failed = w.failed := by
  have idle := (sound.ownerFits is).2
  simp only [World.ownerStep, Option.some.injEq] at next
  by_cases lt : k < config.worker
  · rw [if_pos lt] at next
    cases ready : (w.workers k).serviceReady with
    | none =>
        simp only [ready] at next
        subst next
        refine ⟨?_, rfl⟩
        refine sound.go_on is rfl rfl ?_ (fun _ _ => Nat.zero_le _) trivial
        rintro j ⟨⟩
        exact idle
    | some job =>
        simp only [ready] at next
        subst next
        refine ⟨?_, rfl⟩
        refine sound.go_on is rfl rfl ?_ (fun _ _ => Nat.zero_le _) lt
        rintro j ⟨⟩
        exact idle
  · rw [if_neg lt] at next
    subst next
    refine ⟨?_, rfl⟩
    refine sound.go_on is rfl rfl ?_ (fun _ _ => Nat.zero_le _) trivial
    rintro j ⟨⟩
    exact idle.1

theorem Sound.stealLoaded (sound : w.Sound heard hung config) {k job : ℕ}
    (is : w.owner = some (.worker i, .stealLoaded k job))
    (next : w.ownerStep config (.worker i) (.stealLoaded k job) = some w') :
    w'.Sound heard hung config ∧ w'.failed = w.failed := by
  have idle := (sound.ownerFits is).2
  have lt : k < config.worker := sound.regular _ _ is
  simp only [World.ownerStep, Option.some.injEq] at next
  by_cases ready : (w.workers k).serviceReady = some job
  · rw [if_pos ready] at next
    subst next
    refine ⟨?_, rfl⟩
    refine sound.handOver is lt rfl (fun _ => rfl) ?_ rfl ?_ (fun _ _ => Nat.zero_le _) trivial
    · simp only [Phase.tickets, Worker.tickets, ready, slip_some, slip_none]
      abel
    · rintro j ⟨⟩
      -- the owner has no job ready itself
      have other : i ≠ k := by
        rintro rfl
        rw [idle.2] at ready
        cases ready
      rw [setWorker_other other]
      exact idle
  · rw [if_neg ready] at next
    subst next
    refine ⟨?_, rfl⟩
    refine sound.go_on is rfl rfl ?_ (fun _ _ => Nat.zero_le _) trivial
    rintro j ⟨⟩
    exact idle

/-- The stolen job finds its place free. -/
theorem Sound.give (sound : w.Sound heard hung config) {job : ℕ}
    (is : w.owner = some (.worker i, .give job))
    (next : w.ownerStep config (.worker i) (.give job) = some w') :
    w'.Sound heard hung config ∧ w'.failed = w.failed := by
  have idle := (sound.ownerFits is).2
  simp only [World.ownerStep, idle.2, Option.some.injEq] at next
  subst next
  refine ⟨?_, rfl⟩
  refine sound.handOver is (sound.ownerWorker i _ is) rfl (fun _ => rfl) ?_ rfl ?_
    (fun _ _ => Nat.zero_le _) trivial
  · simp only [Phase.tickets, Worker.tickets, idle.2, slip_some, slip_none]
    abel
  · rintro j ⟨⟩
    rw [setWorker_self]
    exact idle.1

/-- A worker gives the schedule back. -/
theorem Sound.releaseWorker (sound : w.Sound heard hung config)
    (is : w.owner = some (.worker i, .release)) :
    ({ w.setWorker i { w.workers i with stage := .poll } with owner := none } : World D).Sound
      heard hung config := by
  have idle : (w.workers i).running = none := (sound.ownerFits is).2
  have lt := sound.ownerWorker i _ is
  constructor
  · have tickets' : ({ w.setWorker i { w.workers i with stage := .poll } with owner := none } :
        World D).tickets config = w.tickets config := by
      have same : Worker.tickets { w.workers i with stage := .poll } = (w.workers i).tickets := by
        simp [Worker.tickets, idle]
      rw [tickets_owner is]
      change slips w.schedule .waiting +
        (w.setWorker i { w.workers i with stage := .poll }).workerTickets config + 0 +
        slips w.signals .signalled + signalSlips (rootQueue w.pool) = 0 + (_ + _ + _ + _)
      rw [setWorker_workerTickets lt, workerTickets_eq lt, same]
      abel
    rw [tickets']
    have stands := sound.stands
    rw [checking_owner is] at stands
    exact stands
  · intro j ltj
    change Worker.Fits j none ((w.setWorker i { w.workers i with stage := .poll }).workers j)
    by_cases own : j = i
    · subst own
      rw [setWorker_self]
      exact ⟨idle, rfl⟩
    · rw [setWorker_other own]
      have free := sound.workers j ltj
      rwa [phaseOf_other is (by simpa using own)] at free
  · intro j phase held
    cases held
  · intro e phase held
    cases held
  · intro u phase held
    cases held
  · exact sound.pool

theorem Sound.releaseExclusive (sound : w.Sound heard hung config) {e : ℕ}
    (is : w.owner = some (.exclusive e, .release)) :
    ({ w.setExclusive e { w.exclusives e with stage := .body } with owner := none } :
      World D).Sound heard hung config := by
  constructor
  · have tickets' : ({ w.setExclusive e { w.exclusives e with stage := .body } with
        owner := none } : World D).tickets config = w.tickets config := by
      rw [tickets_owner is]
      change slips w.schedule .waiting + w.workerTickets config + 0 +
        slips w.signals .signalled + signalSlips (rootQueue w.pool) = 0 + (_ + _ + _ + _)
      abel
    rw [tickets']
    have stands := sound.stands
    rw [checking_owner is] at stands
    exact stands
  · intro j lt
    have free := sound.workers j lt
    rwa [phaseOf_other is (by simp)] at free
  · intro j phase held
    cases held
  · intro d phase held
    cases held
  · intro u phase held
    cases held
  · have services := services_setExclusive (w := w) e { w.exclusives e with stage := .body } rfl
    change w.pool.Sound config.exclusive
      (w.setExclusive e { w.exclusives e with stage := .body }).services
    rw [services]
    exact sound.pool

/-! ## The queue of an exclusive thread -/

/-- The owner is an exclusive thread, which changes its queue. -/
theorem Sound.exclusive_step (sound : w.Sound heard hung config) {e : ℕ} {old new : Phase D}
    (is : w.owner = some (.exclusive e, old)) {sending : List (Message D)} {p : Pool D}
    (stands : Ticketed (Tells heard) (Rests hung new.checks) (((w.setPool p).go (.exclusive e)
      new).tickets config) p.get)
    (pool : p.Sound config.exclusive w.services) (turns : new.turns ≤ sending.length)
    (regular : new.Regular config) :
    (((w.setExclusive e { w.exclusives e with sending := sending }).setPool p).go (.exclusive e)
      new).Sound heard hung config := by
  have services := services_setExclusive (w := w) e { w.exclusives e with sending := sending } rfl
  refine sound.owner_step is rfl stands ?_ (fun _ => rfl) (fun _ _ => rfl) ?_ ?_ regular
  · change p.Sound config.exclusive
      (w.setExclusive e { w.exclusives e with sending := sending }).services
    rw [services]
    exact pool
  · rintro i ⟨⟩
  · rintro d ⟨⟩
    simpa [World.setExclusive, World.setPool, World.go] using turns

theorem Sound.sendOut (sound : w.Sound heard hung config) {e : ℕ} {msg : Message D}
    (is : w.owner = some (.exclusive e, .sendOut msg))
    (proper : Proper w.pool (w.exclusives e).service msg)
    (spares : Spares hung w.pool (w.exclusives e).service msg)
    (next : w.ownerStep config (.exclusive e) (.sendOut msg) = some w') :
    w'.Sound heard hung config ∧
      ((∀ T, w.pool.get msg.to' = some T → T.status ≠ .dead → T.msg ≠ none) →
        w'.failed = w.failed) := by
  simp only [World.ownerStep, Option.some.injEq] at next
  subst next
  obtain ⟨S, found, status⟩ := sound.pool.exclusives e (sound.ownerExclusive e _ is).1
  have stands := sound.stands
  rw [checking_owner is, tickets_owner is] at stands
  refine sound.dispatchOutMessage is found (.inr (.inr status)) proper spares ?_ rfl ?_
    (fun _ _ => Nat.zero_le _) trivial
  · rw [tickets_go]
    exact stands
  · rintro i ⟨⟩

theorem Sound.sendingTurn (sound : w.Sound heard hung config) {e left : ℕ}
    {blocked : SendingBlocked} (is : w.owner = some (.exclusive e, .sending (left + 1) blocked))
    (proper : ∀ msg, (w.exclusives e).sending.head? = some msg → msg.type ≠ messageSignal)
    (next : w.ownerStep config (.exclusive e) (.sending (left + 1) blocked) = some w') :
    w'.Sound heard hung config ∧
      ((∀ msg T, (w.exclusives e).sending.head? = some msg → w.pool.get msg.to' = some T →
        T.status ≠ .dead → T.msg ≠ none) → w'.failed = w.failed) := by
  simp only [World.ownerStep, Option.some.injEq] at next
  subst next
  have turns : left + 1 ≤ (w.exclusives e).sending.length := (sound.ownerExclusive e _ is).2
  have stands := sound.stands
  rw [checking_owner is, tickets_owner is] at stands
  change Ticketed _ (Rests hung none) (0 + w.unownedTickets config) _ at stands
  unfold World.sendingTurn
  cases sending : (w.exclusives e).sending with
  | nil => simp [sending] at turns
  | cons msg rest =>
      rw [sending, List.length_cons] at turns
      have unsignalled : msg.type ≠ messageSignal := proper msg (by rw [sending]; rfl)
      have back : ∀ blocked, ((w.setExclusive e { w.exclusives e with
          sending := rest ++ [msg] }).go (.exclusive e) (.sending left blocked)).Sound heard hung
          config := by
        intro blocked
        refine sound.exclusive_step is ?_ sound.pool ?_ trivial
        · rw [tickets_go]
          exact stands
        · rw [List.length_append, List.length_singleton]
          exact Nat.le_of_succ_le turns
      dsimp only
      by_cases waits : blocked.check msg.to' = true
      · rw [if_pos waits]
        exact ⟨back blocked, fun _ => rfl⟩
      · rw [if_neg waits]
        cases pushed : w.pool.pushMessage msg.to' msg with
        | succ p =>
            obtain ⟨kept, T, queue, foundT, isT, -, now, long⟩ := offered stands pushed
            refine ⟨?_, fun _ => rfl⟩
            refine sound.exclusive_step is ?_ (pool_pushed sound.pool foundT now long)
              (Nat.le_of_succ_le_succ turns) ⟨rfl, trivial⟩
            have slips' := signalSlips_pushed foundT isT now
            rw [if_neg (by simp [unsignalled]), add_zero] at slips'
            rw [tickets_go]
            change Ticketed _ _ (0 + (slips w.schedule .waiting + w.workerTickets config +
              slips w.signals .signalled + signalSlips (rootQueue p))) p.get
            rw [slips']
            exact kept
        | blocked => exact ⟨back (blocked.mark msg.to'), fun _ => rfl⟩
        | dead =>
            refine ⟨?_, fun _ => rfl⟩
            refine sound.exclusive_step is ?_ sound.pool (Nat.le_of_succ_le_succ turns) trivial
            rw [tickets_go]
            exact stands
        | noQueue =>
            refine ⟨sound.fail _, fun queue => ?_⟩
            obtain ⟨T, foundT, alive, none'⟩ := noQueue_spec pushed
            exact absurd none' (queue msg T rfl foundT alive)

/-! ## Every step -/

/-- The message that the next step of the owner hands out, with its sender. -/
def offers (w : World D) : Option (ℕ × Message D) :=
  match w.owner with
  | some (_, .dispatch _ (id :: _)) =>
      if w.pool.statusGet id = .dead then none else (w.pool.out id).map (Prod.mk id)
  | some (.exclusive e, .sendOut msg) => some ((w.exclusives e).service, msg)
  | some (.exclusive e, .sending (_ + 1) _) =>
      (w.exclusives e).sending.head?.map (Prod.mk (w.exclusives e).service)
  | _ => none

/-- What the services promise of their messages, and root of the services that it closes. -/
def Disciplined (w : World D) : Action D → Prop
  | .owner => ∀ id msg, w.offers = some (id, msg) → Proper w.pool id msg
  | .call _ (.close sid) =>
      w.pool.statusGet sid = .dead → w.pool.get sid = none ∨ sid ∈ w.signals
  | _ => True

/-- The next step hangs up no running service, and one at rest only if `hung`. -/
def Sparing (hung : Prop) (w : World D) : Action D → Prop
  | .owner => ∀ id msg, w.offers = some (id, msg) → Spares hung w.pool id msg
  | _ => True

theorem Sparing.any {hung : Prop} {w : World D} {a : Action D} (sparing : w.Sparing False a) :
    w.Sparing hung a := by
  cases a with
  | owner =>
      intro id msg offered
      obtain ⟨running, resting⟩ := sparing id msg offered
      exact ⟨running, fun root system kind status => (resting root system kind status).elim⟩
  | _ => trivial

/-- The queue of root has room when a dead service is due to signal. -/
def Hears (w : World D) : Prop :=
  ∀ t goal id doneJob, w.owner = some (t, .dispatch goal (id :: doneJob)) →
    w.pool.statusGet id = .dead → Roomy w.pool

/-- No message goes to a service that is not initialised. -/
def Addressed (w : World D) : Prop :=
  ∀ id msg T, w.offers = some (id, msg) → w.pool.get msg.to' = some T →
    T.status ≠ .uninitialized

theorem Sound.queue_of_status (sound : w.Sound heard hung config) {id : ℕ} {T : Service D}
    (found : w.pool.get id = some T) (status : T.status ≠ .uninitialized)
    (alive : T.status ≠ .dead) : T.msg ≠ none := by
  intro none'
  rcases (sound.pool.sane id T found).queue none' with fresh | dead
  · exact status fresh
  · exact alive dead

theorem Sound.ownerStep (sound : w.Sound heard hung config) (exclusive : 0 < config.exclusive)
    {phase : Phase D} (is : w.owner = some (t, phase)) (disciplined : w.Disciplined .owner)
    (sparing : w.Sparing hung .owner) (hears : heard → w.Hears)
    (next : w.ownerStep config t phase = some w') :
    w'.Sound heard hung config ∧ (heard → w.Addressed → w'.failed = w.failed) := by
  have both : ∀ {P : Prop}, w'.Sound heard hung config ∧ w'.failed = w.failed →
      w'.Sound heard hung config ∧ (heard → P → w'.failed = w.failed) :=
    fun after => ⟨after.1, fun _ _ => after.2⟩
  cases phase with
  | secondComplete =>
      cases t with
      | worker i => exact both (sound.secondComplete is next)
      | exclusive e => cases next
  | collect goal k doneJob => exact both (sound.collect is next)
  | dispatch goal doneJob =>
      cases doneJob with
      | nil =>
          simp only [World.ownerStep, Option.some.injEq] at next
          subst next
          refine both ⟨sound.go_on is rfl rfl ?_ (fun _ _ => Nat.zero_le _) trivial, rfl⟩
          rintro i rfl
          exact (sound.ownerFits is).2
      | cons id doneJob =>
          have offered : ∀ msg, w.pool.statusGet id ≠ .dead → w.pool.out id = some msg →
              w.offers = some (id, msg) := by
            intro msg alive out
            simp [offers, is, alive, out]
          obtain ⟨after, failed⟩ := sound.dispatch exclusive is
            (fun msg alive out => ⟨disciplined id msg (offered msg alive out),
              sparing id msg (offered msg alive out)⟩)
            (fun heard dead => hears heard t goal id doneJob is dead) next
          refine ⟨after, fun heard addressed => ?_⟩
          by_cases dead : w.pool.statusGet id = .dead
          · simp only [World.ownerStep, dead, if_true, Option.some.injEq] at next
            subst next
            exact (sound.dispatchSignal exclusive is dead fun heard =>
              hears heard t goal id doneJob is dead).2 heard
          · exact failed heard fun msg T out found => sound.queue_of_status found
              (addressed id msg T (offered msg dead out) found)
  | finish goal id doneJob => exact both (sound.finish exclusive is next)
  | check to' after =>
      simp only [World.ownerStep, Option.some.injEq] at next
      subst next
      exact both (sound.check exclusive is)
  | assign goal k job => exact both (sound.assign exclusive is next)
  | selfComplete =>
      cases t with
      | worker i => exact both (sound.selfComplete is next)
      | exclusive e => cases next
  | hasJob =>
      cases t with
      | worker i => exact both (sound.hasJob is next)
      | exclusive e => cases next
  | steal k =>
      cases t with
      | worker i => exact both (sound.steal is next)
      | exclusive e => cases next
  | stealLoaded k job =>
      cases t with
      | worker i => exact both (sound.stealLoaded is next)
      | exclusive e => cases next
  | give job =>
      cases t with
      | worker i => exact both (sound.give is next)
      | exclusive e => cases next
  | sendOut msg =>
      cases t with
      | worker i => cases next
      | exclusive e =>
          have offered : w.offers = some ((w.exclusives e).service, msg) := by simp [offers, is]
          obtain ⟨after, failed⟩ := sound.sendOut is (disciplined _ msg offered)
            (sparing _ msg offered) next
          exact ⟨after, fun _ addressed => failed fun T found => sound.queue_of_status found
            (addressed _ msg T offered found)⟩
  | startSending =>
      cases t with
      | worker i => cases next
      | exclusive e =>
          simp only [World.ownerStep, Option.some.injEq] at next
          subst next
          refine both ⟨sound.go_on is rfl rfl (by rintro i ⟨⟩) ?_ trivial, rfl⟩
          rintro d ⟨⟩
          exact Nat.le_refl _
  | sending left blocked =>
      cases t with
      | worker i => cases left <;> cases next
      | exclusive e =>
          cases left with
          | zero =>
              simp only [World.ownerStep, Option.some.injEq] at next
              subst next
              exact both ⟨sound.go_on is rfl rfl (by rintro i ⟨⟩) (fun _ _ => Nat.zero_le _)
                trivial, rfl⟩
          | succ left =>
              have offered : ∀ msg, (w.exclusives e).sending.head? = some msg →
                  w.offers = some ((w.exclusives e).service, msg) := by
                intro msg first
                simp [offers, is, first]
              obtain ⟨after, failed⟩ := sound.sendingTurn is
                (fun msg first => (disciplined _ msg (offered msg first)).unsignalled) next
              exact ⟨after, fun _ addressed => failed fun msg T first found =>
                sound.queue_of_status found (addressed _ msg T (offered msg first) found)⟩
  | release =>
      cases t with
      | worker i =>
          simp only [World.ownerStep, Option.some.injEq] at next
          subst next
          exact both ⟨sound.releaseWorker is, rfl⟩
      | exclusive e =>
          simp only [World.ownerStep, Option.some.injEq] at next
          subst next
          exact both ⟨sound.releaseExclusive is, rfl⟩

theorem Sound.call (sound : w.Sound heard hung config) (exists' : t.Exists config) {id : ℕ}
    {c : Call D} (runs : w.runs t = some id) (disciplined : w.Disciplined (.call t c))
    (is : w.call config t id c = some w') : w'.Sound heard hung config := by
  cases c with
  | recv => exact sound.recv exists' runs is
  | receipt => exact sound.receipt exists' runs is
  | send m => exact sound.send exists' runs is
  | post m => exact sound.post is
  | init sid ok => exact sound.init is
  | close sid => exact sound.close disciplined is
  | yield => exact sound.yield exists' runs is
  | quit => exact sound.quit exists' runs is

/-- Only the owner of the schedule can fail. -/
theorem call_failed {id : ℕ} {c : Call D} (is : w.call config t id c = some w') :
    w'.failed = w.failed := by
  cases c <;> simp only [World.call] at is
  case recv =>
    split at is
    · cases is; rfl
    · split at is <;> cases is <;> rfl
  case receipt => cases is; rfl
  case send => split at is <;> cases is <;> rfl
  case post =>
    split at is
    · cases is
    · split at is <;> cases is <;> rfl
  case init =>
    split at is
    · split at is <;> cases is <;> rfl
    · cases is
  case close =>
    split at is
    · split at is <;> cases is <;> rfl
    · cases is
  case yield =>
    split at is
    · cases is; rfl
    · split at is <;> cases is <;> rfl
  case quit =>
    split at is
    · split at is <;> cases is <;> rfl
    · cases is; rfl

theorem next_failed {a : Action D} (other : a ≠ .owner) (is : w.next config a = some w') :
    w'.failed = w.failed := by
  cases a with
  | getJob i =>
      simp only [World.next] at is
      split at is
      · split at is <;> cases is <;> rfl
      · cases is
  | casJob i =>
      simp only [World.next] at is
      split at is
      · split at is <;> cases is <;> rfl
      · cases is
  | start i =>
      simp only [World.next] at is
      split at is
      · split at is <;> cases is <;> rfl
      · cases is
  | call t c =>
      obtain ⟨id, -, called⟩ := Option.bind_eq_some_iff.mp is
      exact call_failed called
  | complete i =>
      simp only [World.next] at is
      split at is
      · split at is <;> cases is <;> rfl
      · cases is
  | acquire t =>
      cases t with
      | worker i =>
          simp only [World.next, World.acquire] at is
          split at is <;> cases is <;> rfl
      | exclusive e =>
          simp only [World.next, World.acquire] at is
          split at is <;> cases is
          rfl
  | owner => exact absurd rfl other
  | exit i =>
      simp only [World.next] at is
      split at is <;> cases is
      rfl

/-- A step of a disciplined run keeps the invariant, and no assertion fails. -/
theorem Sound.step (sound : w.Sound heard hung config) (exclusive : 0 < config.exclusive)
    {a : Action D} (disciplined : w.Disciplined a) (sparing : w.Sparing hung a)
    (hears : heard → w.Hears)
    (is : w.step config a = some w') :
    w'.Sound heard hung config ∧ (heard → w.Addressed → w'.failed = none) := by
  simp only [World.step, Option.ite_none_right_eq_some] at is
  obtain ⟨⟨running, exists'⟩, is⟩ := is
  have plain : a ≠ .owner → w'.Sound heard hung config →
      w'.Sound heard hung config ∧ (heard → w.Addressed → w'.failed = none) :=
    fun other after => ⟨after, fun _ _ => (next_failed other is).trans running⟩
  cases a with
  | getJob i => exact plain (by simp) (sound.getJob exists' is)
  | casJob i => exact plain (by simp) (sound.casJob exists' is)
  | start i => exact plain (by simp) (sound.start exists' is)
  | call t c =>
      obtain ⟨id, runs, called⟩ := Option.bind_eq_some_iff.mp is
      exact plain (by simp) (sound.call exists' runs disciplined called)
  | complete i => exact plain (by simp) (sound.complete exists' is)
  | acquire t =>
      cases t with
      | worker i => exact plain (by simp) (sound.acquire_worker exists' is)
      | exclusive e => exact plain (by simp) (sound.acquire_exclusive exists' is)
  | owner =>
      obtain ⟨⟨t, phase⟩, held, moved⟩ := Option.bind_eq_some_iff.mp is
      obtain ⟨after, failed⟩ := sound.ownerStep exclusive held disciplined sparing hears moved
      exact ⟨after, fun heard addressed => (failed heard addressed).trans running⟩
  | exit i => exact plain (by simp) (sound.exit exists' is)

end World

end WindLtask.Runtime
