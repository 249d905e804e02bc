import WindLtask.Runtime.Service

/-!
# The scheduler

`ltask/src/ltask.c` and `ltask/src/worker.h`: worker threads, exclusive threads and
the schedule that the thread which owns it works on.  A step is one access to what
several threads share, with the accesses to what only its thread can reach; steps of
all threads come in any order.  What a service does between two steps of its thread
is a list of calls.  Sleeping and waking of workers only decide which thread is next,
and are left out.
-/

namespace WindLtask.Runtime

variable {D : Type}

inductive Thread where
  | worker (i : ℕ)
  | exclusive (e : ℕ)
deriving DecidableEq

/-- Where a worker is in `thread_worker`. -/
inductive Stage where
  | poll
  /-- `worker_get_job` has loaded `service_ready`. -/
  | loaded (job : ℕ)
  | taken
  | resumed
  | completing
  /-- `worker_complete_job` has failed. -/
  | retry
  | idle
  | owning
  | quit
deriving DecidableEq

/-- `struct worker_thread`; an id of 0 is `none`. -/
structure Worker where
  running : Option ℕ
  serviceReady : Option ℕ
  serviceDone : Option ℕ
  stage : Stage
deriving DecidableEq

/-- `struct sending_blocked` -/
structure SendingBlocked where
  n : ℕ
  id : List ℕ
deriving DecidableEq

/-- `SENDING_BLOCKED` -/
def sendingBlocked : ℕ := 128

/-- `sending_blocked_check` -/
def SendingBlocked.check (S : SendingBlocked) (id : ℕ) : Bool :=
  if S.n = 0 then false
  else if S.n > sendingBlocked then true
  else id ∈ S.id

/-- `sending_blocked_mark` -/
def SendingBlocked.mark (S : SendingBlocked) (id : ℕ) : SendingBlocked :=
  if S.n = sendingBlocked then { S with n := S.n + 1 } else { n := S.n + 1, id := S.id ++ [id] }

/-- Where an exclusive thread is; `acquiring` holds the message taken out of its service. -/
inductive ExclusiveStage (D : Type) where
  | body
  | acquiring (out : Option (Message D))
  | owning
  | quit

structure ExclusiveThread (D : Type) where
  service : ℕ
  sending : List (Message D)
  stage : ExclusiveStage D

/-- What follows a `schedule_dispatch`. -/
inductive Goal where
  /-- `worker_complete_job` once more ("Do it self"). -/
  | again
  /-- The rest of `schedule_dispatch_worker`. -/
  | worker
  | exclusive
deriving DecidableEq

/-- Where the owner of the schedule is, with its local variables. -/
inductive Phase (D : Type) where
  | secondComplete
  /-- Step 1 of `schedule_dispatch`, at worker `i`. -/
  | collect (goal : Goal) (i : ℕ) (doneJob : List ℕ)
  /-- Step 2, with the jobs that are left. -/
  | dispatch (goal : Goal) (doneJob : List ℕ)
  /-- The end of step 2 for the job `id`. -/
  | finish (goal : Goal) (id : ℕ) (doneJob : List ℕ)
  /-- A message was offered to `to'`: is this service idle? -/
  | check (to' : ℕ) (next : Phase D)
  /-- Step 3, at worker `i`. -/
  | assign (goal : Goal) (i : ℕ) (job : Option ℕ)
  | selfComplete
  | hasJob
  /-- `steal_job`, at worker `k`. -/
  | steal (k : ℕ)
  | stealLoaded (k job : ℕ)
  | give (job : ℕ)
  | sendOut (msg : Message D)
  | startSending
  /-- `dispatch_exclusive_sending` with the turns that are left. -/
  | sending (left : ℕ) (blocked : SendingBlocked)
  | release

/-- The assertions that can fail, and a pointer that is not there. -/
inductive Failure where
  | scheduleFull
  | noSignal
  | notCompleted
  | nullPointer
deriving DecidableEq

/-- `struct ltask_config`; the pool holds its `max_service` and `queue`. -/
structure Config where
  worker : ℕ
  exclusive : ℕ
  queueSending : ℕ

structure World (D : Type) where
  pool : Pool D
  schedule : List ℕ
  workers : ℕ → Worker
  exclusives : ℕ → ExclusiveThread D
  /-- `schedule_owner` -/
  owner : Option (Thread × Phase D)
  /-- The services whose signal root has received and which it has not closed yet. -/
  signals : List ℕ
  /-- `term_signal` -/
  term : Bool
  failed : Option Failure

namespace World

def fail (w : World D) (failure : Failure) : World D := { w with failed := some failure }

def setWorker (w : World D) (i : ℕ) (worker : Worker) : World D :=
  { w with workers := Function.update w.workers i worker }

def setExclusive (w : World D) (e : ℕ) (thread : ExclusiveThread D) : World D :=
  { w with exclusives := Function.update w.exclusives e thread }

def setSchedule (w : World D) (schedule : List ℕ) : World D := { w with schedule := schedule }

def setPool (w : World D) (pool : Pool D) : World D := { w with pool := pool }

def go (w : World D) (t : Thread) (phase : Phase D) : World D := { w with owner := some (t, phase) }

/-- `schedule_back` -/
def scheduleBack (w : World D) (id : ℕ) : World D :=
  if w.schedule.length < w.pool.maxService - 1 then w.setSchedule (w.schedule ++ [id])
  else w.fail .scheduleFull

/-- A service that has been idle goes into the schedule. -/
def wake (w : World D) (id : ℕ) : World D :=
  if w.pool.statusGet id = .idle then
    (w.setPool (w.pool.statusSet id .schedule)).scheduleBack id
  else w

/-- `dispatch_schedule_message` -/
def dispatchScheduleMessage (w : World D) (id : ℕ) (msg : Message D) : World D :=
  if id ≠ serviceIdRoot then w.setPool (w.pool.writeReceipt id .error (some msg))
  else if msg.type = scheduleNew then
    match w.pool.new msg.session with
    | some (sid, pool) =>
        w.setPool (pool.writeReceipt id .responce (some { msg with to' := sid }))
    | none => w.setPool (w.pool.writeReceipt id .error (some { msg with to' := 0 }))
  else if msg.type = scheduleDel then
    w.setPool ((w.pool.delete msg.session).writeReceipt id .done none)
  else if msg.type = scheduleHang then
    let sid := msg.session
    if w.pool.statusGet sid = .schedule then
      let pool := (w.pool.statusSet sid .dead).sendSignal sid
      w.setPool (pool.writeReceipt id .error (some msg))
    else if (w.pool.hang sid).2 then
      let w := w.scheduleBack sid
      w.setPool (w.pool.writeReceipt id .error (some msg))
    else w.setPool ((w.pool.hang sid).1.writeReceipt id .done none)
  else w.setPool (w.pool.writeReceipt id .error (some msg))

/-- `dispatch_out_message`, up to its look at the status of the receiver. -/
def dispatchOutMessage (w : World D) (t : Thread) (id : ℕ) (msg : Message D) (next : Phase D) :
    World D :=
  if msg.to' = serviceIdSystem then (w.dispatchScheduleMessage id msg).go t next
  else
    match w.pool.pushMessage msg.to' msg with
    | .succ pool => (w.setPool (pool.writeReceipt id .done none)).go t (.check msg.to' next)
    | .blocked =>
        (w.setPool (w.pool.writeReceipt id .block (some msg))).go t (.check msg.to' next)
    | .dead => (w.setPool (w.pool.writeReceipt id .error (some msg))).go t (.check msg.to' next)
    | .noQueue => w.fail .nullPointer

/-- Step 2 of `schedule_dispatch` for a dead service. -/
def dispatchSignal (w : World D) (t : Thread) (goal : Goal) (id : ℕ) (doneJob : List ℕ) :
    World D :=
  match w.pool.out id with
  | none => w.fail .noSignal
  | some msg =>
      if msg.to' = serviceIdRoot ∧ msg.type = messageSignal then
        let pool := w.pool.takeOut id
        match pool.pushMessage msg.to' msg with
        | .succ pool => (w.setPool pool).go t (.check msg.to' (.dispatch goal doneJob))
        -- the message has been taken out and is lost
        | .blocked => ((w.setPool pool).scheduleBack id).go t (.dispatch goal doneJob)
        | .dead => (w.setPool (pool.delete id)).go t (.dispatch goal doneJob)
        | .noQueue => w.fail .nullPointer
      else w.fail .noSignal

/-- `worker_complete_job` of a worker whose `service_done` is 0. -/
def completeJob (w : World D) (i : ℕ) : World D :=
  let worker := w.workers i
  w.setWorker i { worker with serviceDone := worker.running, running := none }

/-- What the owner does after `schedule_dispatch`. -/
def afterSchedule : Goal → Phase D
  | .again => .selfComplete
  | .worker => .hasJob
  | .exclusive => .release

/-- One turn of the loop of `dispatch_exclusive_sending`. -/
def sendingTurn (w : World D) (e left : ℕ) (blocked : SendingBlocked) : World D :=
  match (w.exclusives e).sending with
  | [] => w.fail .nullPointer
  | msg :: rest =>
      let back := w.setExclusive e { w.exclusives e with sending := rest ++ [msg] }
      let popped := w.setExclusive e { w.exclusives e with sending := rest }
      if blocked.check msg.to' then back.go (.exclusive e) (.sending left blocked)
      else
        match w.pool.pushMessage msg.to' msg with
        | .succ pool =>
            (popped.setPool pool).go (.exclusive e) (.check msg.to' (.sending left blocked))
        | .blocked => back.go (.exclusive e) (.sending left (blocked.mark msg.to'))
        | .dead => popped.go (.exclusive e) (.sending left blocked)
        | .noQueue => w.fail .nullPointer

/-- The next step of the owner. -/
def ownerStep (config : Config) (w : World D) : Thread → Phase D → Option (World D)
  | .worker i, .secondComplete =>
      some <| match (w.workers i).serviceDone with
        | none => (w.completeJob i).go (.worker i) (.collect .worker 0 [])
        | some _ => w.go (.worker i) (.collect .again 0 [])
  | t, .collect goal i doneJob =>
      some <|
        if i < config.worker then
          match (w.workers i).serviceDone with
          | some job =>
              (w.setWorker i { w.workers i with serviceDone := none }).go t
                (.collect goal (i + 1) (doneJob ++ [job]))
          | none => w.go t (.collect goal (i + 1) doneJob)
        else w.go t (.dispatch goal doneJob)
  | t, .dispatch goal [] => some (w.go t (.assign goal 0 none))
  | t, .dispatch goal (id :: doneJob) =>
      some <|
        if w.pool.statusGet id = .dead then w.dispatchSignal t goal id doneJob
        else
          match w.pool.out id with
          | none => w.go t (.finish goal id doneJob)
          | some msg =>
              (w.setPool (w.pool.takeOut id)).dispatchOutMessage t id msg
                (.finish goal id doneJob)
  | t, .finish goal id doneJob =>
      some <|
        if w.pool.hasMessage id then
          ((w.setPool (w.pool.statusSet id .schedule)).scheduleBack id).go t
            (.dispatch goal doneJob)
        else (w.setPool (w.pool.statusSet id .idle)).go t (.dispatch goal doneJob)
  | t, .check to' next => some ((w.wake to').go t next)
  | t, .assign goal i job =>
      some <|
        if i < config.worker then
          match job, w.schedule with
          | none, [] => w.go t (afterSchedule goal)
          | none, job :: rest => (w.setSchedule rest).go t (.assign goal i (some job))
          | some job, _ =>
              -- `worker_assign_job`
              match (w.workers i).serviceReady with
              | none =>
                  (w.setWorker i { w.workers i with serviceReady := some job }).go t
                    (.assign goal (i + 1) none)
              | some _ => w.go t (.assign goal (i + 1) (some job))
        else
          match job with
          | none => w.go t (afterSchedule goal)
          | some job =>
              -- the answer of `queue_push_int` is not looked at
              if w.schedule.length < w.pool.maxService - 1 then
                (w.setSchedule (w.schedule ++ [job])).go t (afterSchedule goal)
              else w.go t (afterSchedule goal)
  | .worker i, .selfComplete =>
      some <| match (w.workers i).serviceDone with
        | none => (w.completeJob i).go (.worker i) (.collect .worker 0 [])
        | some _ => w.fail .notCompleted
  | .worker i, .hasJob =>
      some (w.go (.worker i) (if (w.workers i).serviceReady = none then .steal 0 else .release))
  | .worker i, .steal k =>
      some <|
        if k < config.worker then
          match (w.workers k).serviceReady with
          | none => w.go (.worker i) (.steal (k + 1))
          | some job => w.go (.worker i) (.stealLoaded k job)
        else w.go (.worker i) .release
  | .worker i, .stealLoaded k job =>
      some <|
        if (w.workers k).serviceReady = some job then
          (w.setWorker k { w.workers k with serviceReady := none }).go (.worker i) (.give job)
        else w.go (.worker i) (.steal (k + 1))
  | .worker i, .give job =>
      some <| match (w.workers i).serviceReady with
        | none =>
            (w.setWorker i { w.workers i with serviceReady := some job }).go (.worker i) .release
        | some _ => w.go (.worker i) .release
  | .exclusive e, .sendOut msg =>
      some (w.dispatchOutMessage (.exclusive e) (w.exclusives e).service msg .startSending)
  | .exclusive e, .startSending =>
      some (w.go (.exclusive e) (.sending (w.exclusives e).sending.length { n := 0, id := [] }))
  | .exclusive e, .sending 0 _ => some (w.go (.exclusive e) (.collect .exclusive 0 []))
  | .exclusive e, .sending (left + 1) blocked => some (w.sendingTurn e left blocked)
  | .worker i, .release =>
      some { w.setWorker i { w.workers i with stage := .poll } with owner := none }
  | .exclusive e, .release =>
      some { w.setExclusive e { w.exclusives e with stage := .body } with owner := none }
  | _, _ => none

end World

/-- What a service asks of its thread; `D` is what messages point at. -/
inductive Call (D : Type) where
  /-- `ltask.recv_message` -/
  | recv
  /-- `ltask.message_receipt` -/
  | receipt
  /-- `ltask.send_message` -/
  | send (m : Message D)
  /-- `exclusive.send`, also by `timer_update` -/
  | post (m : Message D)
  /-- `root.init_service`, and whether it works -/
  | init (sid : ℕ) (ok : Bool)
  /-- `root.close_service` -/
  | close (sid : ℕ)
  /-- The service yields; for an exclusive service also `exclusive.scheduling`. -/
  | yield
  /-- The service ends. -/
  | quit

inductive Action (D : Type) where
  /-- The worker looks for a job. -/
  | getJob (i : ℕ)
  /-- The compare-and-swap of `worker_get_job`. -/
  | casJob (i : ℕ)
  /-- The worker resumes its service, unless the service is dead. -/
  | start (i : ℕ)
  | call (t : Thread) (c : Call D)
  | complete (i : ℕ)
  | acquire (t : Thread)
  | owner
  | exit (i : ℕ)

def Thread.Exists (config : Config) : Thread → Prop
  | .worker i => i < config.worker
  | .exclusive e => e < config.exclusive

def Action.Exists (config : Config) : Action D → Prop
  | .getJob i | .casJob i | .start i | .complete i | .exit i => i < config.worker
  | .call t _ | .acquire t => t.Exists config
  | .owner => True

instance (config : Config) : (t : Thread) → Decidable (t.Exists config)
  | .worker i => inferInstanceAs (Decidable (i < config.worker))
  | .exclusive e => inferInstanceAs (Decidable (e < config.exclusive))

instance (config : Config) : (a : Action D) → Decidable (a.Exists config)
  | .getJob i | .casJob i | .start i | .complete i | .exit i =>
      inferInstanceAs (Decidable (i < config.worker))
  | .call t _ | .acquire t => inferInstanceAs (Decidable (t.Exists config))
  | .owner => inferInstanceAs (Decidable True)

namespace World

/-- The service that a thread is running. -/
def runs (w : World D) : Thread → Option ℕ
  | .worker i => if (w.workers i).stage = .resumed then (w.workers i).running else none
  | .exclusive e =>
      match (w.exclusives e).stage with
      | .body => some (w.exclusives e).service
      | _ => none

/-- A call of the service `id`, which the thread is running. -/
def call (config : Config) (w : World D) (t : Thread) (id : ℕ) : Call D → Option (World D)
  | .recv =>
      match w.pool.popMessage id with
      | none => some w
      | some (m, _, pool) =>
          if id = serviceIdRoot ∧ m.type = messageSignal then
            some { w.setPool pool with signals := m.from' :: w.signals }
          else some (w.setPool pool)
  | .receipt => some (w.setPool (w.pool.readReceipt id))
  | .send m =>
      match w.pool.sendMessage id { m with from' := id } with
      | none => some w
      | some pool => some (w.setPool pool)
  | .post m =>
      match t with
      | .worker _ => none
      | .exclusive e =>
          let thread := w.exclusives e
          if thread.sending.length < config.queueSending - 1 then
            let sending := thread.sending ++ [{ m with from' := id }]
            some (w.setExclusive e { thread with sending := sending })
          else some w
  | .init sid ok =>
      -- `service_init` asserts the status
      if id = serviceIdRoot ∧ (w.pool.get sid).map Service.status = some .uninitialized then
        if ok then
          some (w.setPool (w.pool.modify sid fun S => { S with msg := some [], status := .idle }))
        else some (w.setPool (w.pool.delete sid))
      else none
  | .close sid =>
      if id = serviceIdRoot then
        if w.pool.statusGet sid = .dead then
          some { w.setPool (w.pool.delete sid) with signals := w.signals.erase sid }
        else some w
      else none
  | .yield =>
      match t with
      | .worker i =>
          some ((w.setPool (w.pool.statusSet id .done)).setWorker i
            { w.workers i with stage := .completing })
      | .exclusive e =>
          let out := w.pool.out id
          if out.isSome ∨ (w.exclusives e).sending ≠ [] then
            some ((w.setPool (w.pool.takeOut id)).setExclusive e
              { w.exclusives e with stage := .acquiring out })
          else some w
  | .quit =>
      match t with
      | .worker i =>
          if id = serviceIdRoot then
            some { (w.setPool (w.pool.statusSet id .dead)).setWorker i
              { w.workers i with stage := .quit } with term := true }
          else
            some ((w.setPool ((w.pool.statusSet id .dead).sendSignal id)).setWorker i
              { w.workers i with stage := .completing })
      | .exclusive e => some (w.setExclusive e { w.exclusives e with stage := .quit })

/-- How `exclusive_message` begins. -/
def exclusiveMessage : Option (Message D) → Phase D
  | some msg => .sendOut msg
  | none => .startSending

/-- `acquire_scheduler` and `acquire_scheduler_exclusive` -/
def acquire (w : World D) : Thread → Option (World D)
  | .worker i =>
      let worker := w.workers i
      match worker.stage, w.owner with
      | .retry, none =>
          some ((w.setWorker i { worker with stage := .owning }).go (.worker i) .secondComplete)
      | .retry, some _ => some (w.setWorker i { worker with stage := .completing })
      | .idle, none =>
          some ((w.setWorker i { worker with stage := .owning }).go (.worker i)
            (.collect .worker 0 []))
      | .idle, some _ => some (w.setWorker i { worker with stage := .poll })
      | _, _ => none
  | .exclusive e =>
      let thread := w.exclusives e
      match thread.stage, w.owner with
      | .acquiring out, none =>
          some ((w.setExclusive e { thread with stage := .owning }).go (.exclusive e)
            (exclusiveMessage out))
      | _, _ => none

/-- One step; `none` when the thread is elsewhere. -/
def next (config : Config) (w : World D) : Action D → Option (World D)
  | .getJob i =>
      let worker := w.workers i
      if worker.stage = .poll then
        match worker.serviceReady with
        | none => some (w.setWorker i { worker with stage := .idle })
        | some job => some (w.setWorker i { worker with stage := .loaded job })
      else none
  | .casJob i =>
      let worker := w.workers i
      match worker.stage with
      | .loaded job =>
          if worker.serviceReady = some job then
            let running := { worker with serviceReady := none, running := some job }
            some (w.setWorker i { running with stage := .taken })
          else some (w.setWorker i { worker with stage := .idle })
      | _ => none
  | .start i =>
      let worker := w.workers i
      match worker.stage, worker.running with
      | .taken, some id =>
          if w.pool.statusGet id = .dead then
            some (w.setWorker i { worker with stage := .completing })
          else
            some ((w.setPool (w.pool.statusSet id .running)).setWorker i
              { worker with stage := .resumed })
      | _, _ => none
  | .call t c => (w.runs t).bind fun id => w.call config t id c
  | .complete i =>
      let worker := w.workers i
      if worker.stage = .completing then
        match worker.serviceDone with
        | none =>
            let w := w.completeJob i
            some (w.setWorker i { w.workers i with stage := .poll })
        | some _ => some (w.setWorker i { worker with stage := .retry })
      else none
  | .acquire t => w.acquire t
  | .owner => w.owner.bind fun held => w.ownerStep config held.1 held.2
  | .exit i =>
      let worker := w.workers i
      if worker.stage = .poll ∧ w.term then some (w.setWorker i { worker with stage := .quit })
      else none

/-- A step of a thread that there is; nothing happens any more after a failure. -/
def step (config : Config) (w : World D) (a : Action D) : Option (World D) :=
  if w.failed = none ∧ a.Exists config then w.next config a else none

end World

end WindLtask.Runtime
