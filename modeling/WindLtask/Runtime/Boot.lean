import WindLtask.Runtime.Handing

/-!
# Boot

`main.lua`, `ltask/src/config.c` and the functions of `ltask.c` that run before the
threads: the exclusive services get the ids from 2 on, root gets the id 1 and its
first message, and nothing else is in the schedule.
-/

namespace WindLtask.Runtime

open Lib

variable {D : Type}

/-! ## The configuration -/

def maxWorker : ℕ := 256
def maxExclusive : ℕ := 32

/-- The loop of `align_pow2`, with the turns it has left. -/
def alignLoop (x : ℕ) : ℕ → ℕ → ℕ
  | 0, r => r
  | turns + 1, r => if r < x then alignLoop x turns (r * 2) else r

/-- `align_pow2`; it doubles less than `x` times. -/
def alignPow2 (x : ℕ) : ℕ := alignLoop x x 1

theorem alignLoop_pow2 (x turns k : ℕ) : ∃ n, alignLoop x turns (2 ^ k) = 2 ^ n := by
  induction turns generalizing k with
  | zero => exact ⟨k, rfl⟩
  | succ turns ih =>
      simp only [alignLoop]
      split
      · rw [← Nat.pow_succ]
        exact ih (k + 1)
      · exact ⟨k, rfl⟩

theorem alignPow2_pow2 (x : ℕ) : ∃ n, alignPow2 x = 2 ^ n := alignLoop_pow2 x x 0

/-- The fields of the table of `config_load`, and how long its `exclusive` is. -/
structure Settings where
  worker : Option ℕ
  queue : Option ℕ
  queueSending : Option ℕ
  maxService : Option ℕ
  exclusive : ℕ

namespace Settings

/-- `config_load`, on a machine with `ncores` cores. -/
def load (s : Settings) (ncores : ℕ) : Config :=
  let ncores := if ncores ≤ 1 then 2 else ncores
  let worker := s.worker.getD 0
  let worker := if worker = 0 then ncores - 1 else worker
  { worker := if worker > maxWorker then maxWorker else worker
    exclusive := s.exclusive
    queueSending := alignPow2 (s.queueSending.getD 4096) }

/-- `service_create` for the `max_service` and `queue` of `config_load` -/
def create (s : Settings) : Pool D where
  maxService := alignPow2 (s.maxService.getD 65536)
  queueLength := alignPow2 (s.queue.getD 4096)
  id := 0
  s := fun _ => none
  isPow2 := alignPow2_pow2 _

end Settings

/-! ## The first services -/

namespace Pool

/-- What `newservice` makes of a fresh service. -/
def started (S : Service D) : Service D := { S with msg := some [], status := .idle }

/-- `new_service` of `main.lua`, with its assertion. -/
def launch (p : Pool D) (sid : ℕ) : Option (Pool D) :=
  match p.new sid with
  | some (id, pool) => if id = sid then some (pool.modify id started) else none
  | none => none

/-- `ltask_exclusive` -/
def newThread (p : Pool D) (id : ℕ) : Option (Pool D) :=
  if p.statusGet id = .idle then some (p.statusSet id .exclusive) else none

/-- The loop of `main.lua` over `config.exclusive`; index `e` is thread `e` and service `e + 2`. -/
def exclusiveThreads (p : Pool D) : ℕ → Option (Pool D)
  | 0 => some p
  | e + 1 => do
      let p ← p.exclusiveThreads e
      let p ← p.launch (e + 2)
      if e < maxExclusive then p.newThread (e + 2) else none

end Pool

/-- The message of `bootstrap`. -/
def initMessage (d : D) : Message D :=
  { from' := serviceIdRoot, to' := serviceIdRoot, session := 0, type := 0, msg := some d }

namespace World

/-- The threads before their first step. -/
def threads (p : Pool D) : World D where
  pool := p
  schedule := []
  workers := fun _ =>
    { running := none, serviceReady := none, serviceDone := none, stage := .poll }
  exclusives := fun e => { service := e + 2, sending := [], stage := .body }
  owner := none
  signals := []
  term := false
  failed := none

/-- `lpost_message` -/
def postMessage (w : World D) (m : Message D) : Option (World D) :=
  match w.pool.pushMessage m.to' m with
  | .succ pool => some ((w.setPool pool).wake m.to')
  | _ => none

/-- `main.lua` up to `boot.run`; `none` when it raises an error. -/
def boot (s : Settings) (d : D) : Option (World D) := do
  let p ← s.create.exclusiveThreads s.exclusive
  let p ← p.launch serviceIdRoot
  let w ← (threads p).postMessage (initMessage d)
  if w.failed = none then some w else none

end World

/-! ## The invariant at the start -/

namespace Pool

variable {p p' : Pool D} {sid : ℕ}

theorem launch_get (is : p.launch sid = some p') :
    p.get sid = none ∧ p'.get = Function.update p.get sid (some (started (Service.fresh sid))) ∧
      p'.queueLength = p.queueLength := by
  unfold launch at is
  split at is
  · rename_i id pool new
    simp only [Option.ite_none_right_eq_some, Option.some.injEq] at is
    obtain ⟨rfl, rfl⟩ := is
    obtain ⟨-, free, get, -, length⟩ := new_spec new
    have found : pool.get id = some (Service.fresh id) := by rw [get, Function.update_self]
    have now := modify_get (f := started) (fun _ => rfl) found
    refine ⟨free, ?_, (modify_queueLength _ _ _).trans length⟩
    rw [now, get, Function.update_idem]
  · cases is

theorem newThread_get {S : Service D} (found : p.get sid = some S)
    (is : p.newThread sid = some p') :
    p'.get = Function.update p.get sid (some { S with status := .exclusive }) ∧
      p'.queueLength = p.queueLength := by
  simp only [newThread, Option.ite_none_right_eq_some, Option.some.injEq] at is
  obtain ⟨-, rfl⟩ := is
  exact ⟨statusSet_get found .exclusive, modify_queueLength _ _ _⟩

/-- The pool with the exclusive services of the threads below `e`, and no others. -/
structure Exclusives (e : ℕ) (p : Pool D) : Prop where
  present : ∀ k < e, ∃ S, p.get (k + 2) = some S ∧ S.status = .exclusive
  only : ∀ id S, p.get id = some S →
    S.status = .exclusive ∧ S.msg ≠ none ∧ S.bounce = none ∧ S.out = none

theorem exclusives_threads {e : ℕ} (empty : p.Exclusives 0)
    (is : p.exclusiveThreads e = some p') : p'.Exclusives e := by
  induction e generalizing p' with
  | zero => exact Option.some.inj is ▸ empty
  | succ e ih =>
      simp only [exclusiveThreads, Option.bind_eq_bind, Option.bind_eq_some_iff,
        Option.ite_none_right_eq_some] at is
      obtain ⟨q, early, r, launched, -, thread⟩ := is
      have before := ih early
      obtain ⟨free, get, -⟩ := launch_get launched
      have found : r.get (e + 2) = some (started (Service.fresh (e + 2))) := by
        rw [get, Function.update_self]
      obtain ⟨now, -⟩ := newThread_get found thread
      rw [get, Function.update_idem] at now
      refine ⟨?_, ?_⟩
      · intro k lt
        rw [now]
        by_cases last : k = e
        · subst last
          exact ⟨_, Function.update_self _ _ _, rfl⟩
        · rw [Function.update_of_ne (by omega)]
          exact before.present k (by omega)
      · intro id S there
        rw [now] at there
        by_cases same : id = e + 2
        · subst same
          rw [Function.update_self] at there
          cases there
          exact ⟨rfl, by simp [started], rfl, rfl⟩
        · rw [Function.update_of_ne same] at there
          exact before.only id S there

theorem push_spec {m : Message D} {S : Service D} (found : p.get sid = some S)
    {queue : List (Message D)} (has : S.msg = some queue)
    (pushed : p.pushMessage sid m = .succ p') :
    queue.length < p.queueLength - 1 ∧
      p'.get = Function.update p.get sid (some { S with msg := some (queue ++ [m]) }) ∧
      p'.queueLength = p.queueLength := by
  unfold pushMessage at pushed
  simp only [found, has] at pushed
  split at pushed
  · cases pushed
  · split at pushed
    · rename_i room
      cases pushed
      exact ⟨room, modify_get (f := fun S => { S with msg := some (queue ++ [m]) })
        (fun _ => rfl) found, modify_queueLength _ _ _⟩
    · cases pushed

end Pool

theorem initMessage_type (d : D) : (initMessage d).type ≠ messageSignal := by
  change (0 : ℤ) ≠ 4
  decide

namespace World

/-- Root when the threads start. -/
def rootService (d : D) : Service D :=
  { id := serviceIdRoot, msg := some [initMessage d], out := none, bounce := none
    status := .schedule, receipt := .none }

theorem wake_idle {w : World D} {id : ℕ} (idle : w.pool.statusGet id = .idle)
    (failed : (w.wake id).failed ≠ some .scheduleFull) :
    w.wake id = (w.setPool (w.pool.statusSet id .schedule)).setSchedule (w.schedule ++ [id]) := by
  unfold wake scheduleBack at failed ⊢
  rw [if_pos idle] at failed ⊢
  split at failed
  · rename_i room
    rw [if_pos room]
    rfl
  · exact absurd rfl failed

/-- The world when the threads start. -/
theorem boot_spec {s : Settings} {d : D} {start : World D} (is : boot s d = some start) :
    ∃ p q pool : Pool D, start = ((threads q).setPool pool).setSchedule [serviceIdRoot] ∧
      p.Exclusives s.exclusive ∧ 2 ≤ pool.queueLength ∧
        pool.get = Function.update p.get serviceIdRoot (some (rootService d)) := by
  simp only [boot, Option.bind_eq_bind, Option.bind_eq_some_iff,
    Option.ite_none_right_eq_some, Option.some.injEq] at is
  obtain ⟨p, threads', q, launched, w, posted, failed, rfl⟩ := is
  have empty : (s.create : Pool D).Exclusives 0 :=
    ⟨fun k lt => absurd lt (Nat.not_lt_zero k), by simp [Pool.get, Settings.create]⟩
  obtain ⟨-, get, -⟩ := Pool.launch_get launched
  have root : q.get serviceIdRoot = some (Pool.started (Service.fresh serviceIdRoot)) := by
    rw [get, Function.update_self]
  unfold postMessage at posted
  split at posted
  case h_2 => cases posted
  rename_i r pushed
  cases posted
  obtain ⟨room, now, length⟩ := Pool.push_spec root rfl pushed
  rw [get, Function.update_idem] at now
  have found := (congrFun now serviceIdRoot).trans (Function.update_self _ _ _)
  have idle : r.statusGet serviceIdRoot = .idle := Pool.statusGet_of_get found
  have after := Pool.statusSet_get found .schedule
  rw [now, Function.update_idem] at after
  refine ⟨p, q, r.statusSet serviceIdRoot .schedule, ?_, Pool.exclusives_threads empty threads',
    ?_, after⟩
  · have woken := wake_idle (w := (threads q).setPool r) idle
      (by rw [show (((threads q).setPool r).wake serviceIdRoot).failed = none from failed]; simp)
    exact woken
  · have same : (r.statusSet serviceIdRoot .schedule).queueLength = q.queueLength :=
      (Pool.modify_queueLength _ _ _).trans length
    have room : 0 < q.queueLength - 1 := room
    omega

/-- Root is the only service that stands somewhere. -/
theorem boot_tickets {config : Config} {p q : Pool D} {d : D}
    (root : p.get serviceIdRoot = some (rootService d)) :
    (((threads q).setPool p).setSchedule [serviceIdRoot]).tickets config =
      {(serviceIdRoot, .waiting)} := by
  have none' : signalSlips (rootQueue p) = 0 := by
    simp [rootQueue, root, Service.queued, rootService, signalSlips, initMessage_type]
  unfold tickets
  change slips [serviceIdRoot] .waiting + ∑ i ∈ Finset.range config.worker, 0 + 0 + 0 +
    signalSlips (rootQueue p) = _
  rw [none']
  simp

theorem boot_sound {heard hung : Prop} {s : Settings} {ncores : ℕ} {d : D} {start : World D}
    (is : boot s d = some start) : start.Sound heard hung (s.load ncores) := by
  obtain ⟨p, q, pool, rfl, exclusives, room, get⟩ := boot_spec is
  have root : pool.get serviceIdRoot = some (rootService d) := by rw [get, Function.update_self]
  have others : ∀ id, id ≠ serviceIdRoot → pool.get id = p.get id := by
    intro id other
    rw [get, Function.update_of_ne other]
  exact {
    stands := by
      rw [boot_tickets root]
      exact {
        single := Multiset.nodup_singleton _
        held := by
          intro x k member
          obtain ⟨rfl, rfl⟩ := Prod.mk.inj (Multiset.mem_singleton.mp member)
          exact ⟨_, root, Or.inl ⟨rfl, by simp [Service.hasMessage, Service.queued, rootService]⟩⟩
        free := by
          intro x S there absent
          have other : x ≠ serviceIdRoot := by simpa using absent
          have exclusive := (exclusives.only x S ((others x other).symm.trans there)).1
          simp only [Rests, exclusive] }
    workers := fun i _ => ⟨rfl, rfl⟩
    ownerWorker := by rintro i phase ⟨⟩
    ownerExclusive := by rintro e phase ⟨⟩
    regular := by rintro t phase ⟨⟩
    pool := {
      exclusives := by
        intro e lt
        obtain ⟨S, there, status⟩ := exclusives.present e lt
        have other : e + 2 ≠ serviceIdRoot := by simp [serviceIdRoot]
        exact ⟨S, (others _ other).trans there, status⟩
      root := ⟨_, root, by simp [rootService]⟩
      sane := by
        intro id S there
        change pool.get id = some S at there
        by_cases same : id = serviceIdRoot
        · subst same
          rw [root] at there
          cases there
          exact ⟨by simp [rootService], by simp [rootService]⟩
        · obtain ⟨-, queue, bounce, -⟩ := exclusives.only id S ((others id same).symm.trans there)
          exact ⟨fun none' => absurd none' queue, by simp [bounce]⟩
      room := room } }

end World

end WindLtask.Runtime
