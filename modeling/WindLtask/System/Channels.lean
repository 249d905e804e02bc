import WindLtask.System.Flow

/-!
# The calls between the gate and the manager

What each step of the services keeps of the queues: a call of `player_request` is
on its way to the worker of its player, or its lock message is on its way from
there, or the manager has it, and the calls for one player stay in their order.
-/

set_option linter.unusedSectionVars false

namespace WindLtask.System

open Manager World Process

section Net

variable {Name Addr Rid Wid K V : Type} [DecidableEq Name] [DecidableEq Addr] [DecidableEq Rid]
  [DecidableEq Wid] [DecidableEq K] [DecidableEq V]

namespace Net

variable {conf : Persistence Name K V} {s s' : Net Name Addr Rid Wid K V}

theorem lock_of_event {label : Label Name Addr Rid Wid K V} {rid : Rid} {names : List Name}
    (asks : label.event = some (.lock rid names)) : label = .lock rid names := by
  cases label <;> cases asks
  rfl

/-- Only a lock message adds to the requests. -/
theorem Coherent.requests_next (coherent : Coherent s) {label : Label Name Addr Rid Wid K V}
    (taken : Step conf s label s') : s'.mgr.requests = s.mgr.requests ++
      match label with | .lock rid names => [(rid, names)] | _ => [] := by
  rcases coherent.manager_step taken with ⟨event, asks, -, same⟩ | ⟨noMessage, same⟩
  · rw [same, World.requests_next]
    cases label <;> cases asks <;> simp [World.receive]
  · rw [same]
    cases label <;> simp_all [Label.event]

end Net

end Net

variable {Fd Peer Addr Rid Wid N : Type} [DecidableEq Fd] [DecidableEq Addr] [DecidableEq Rid]
  [DecidableEq Wid] [DecidableEq N]

namespace Game

variable {lib : Library N} {request : Scalar N → Option (Handler N)} {g g' : Game Addr Rid Wid N}

/-- The manager gets requests for one player each. -/
theorem Sane.single (sane : Sane g) (single : g.net.mgr.Single) {move : Move Addr Rid Wid N}
    (taken : Step lib request g move g') : g'.net.mgr.Single := by
  obtain ⟨label, makes, net⟩ := net_step taken
  rcases sane.coherent.manager_step net with ⟨event, asks, step⟩ | ⟨-, same⟩
  · refine single.moves sane.coherent.sound sane.coherent.exclusive step.1
      (sane.settled.stocked.newstateClear event) ?_ (moves_of_step sane.coherent.sound step)
    rintro rid names rfl
    obtain rfl := Net.lock_of_event asks
    have enabled := net.1
    cases stage : g.net.stage rid with
    | asking asked =>
        obtain rfl : asked = names := by simpa [Net.Enabled, stage] using enabled
        obtain ⟨pid, data, -, names, -⟩ := sane.asks rid asked (by rw [stage]; rfl)
        exact ⟨user pid, names⟩
    | _ => simp [Net.Enabled, stage] at enabled
  · rw [same]
    exact single

theorem Sane.requests_lock (sane : Sane g) {rid : Rid} {names : List Bytes}
    (taken : Step lib request g (.other (.lock rid names)) g') :
    g'.net.mgr.requests = g.net.mgr.requests ++ [(rid, names)] := by
  obtain ⟨label, makes, net⟩ := net_step taken
  obtain rfl := Option.some.inj makes
  exact sane.coherent.requests_next net

theorem Sane.requests_kept (sane : Sane g) {move : Move Addr Rid Wid N}
    (taken : Step lib request g move g') (other : ∀ rid names, move ≠ .other (.lock rid names)) :
    g'.net.mgr.requests = g.net.mgr.requests := by
  obtain ⟨label, makes, net⟩ := net_step taken
  rw [sane.coherent.requests_next net]
  cases label with
  | lock rid names =>
      cases move with
      | other label => exact absurd (congrArg _ (Option.some.inj makes)) (other rid names)
      | handle rid' =>
          simp only [Game.label, ending] at makes
          split at makes
          · split at makes <;> cases makes
          · cases makes
      | _ => cases makes
  | _ => exact List.append_nil _

end Game

/-! ## Queues -/

/-- The calls for one player. -/
def asksOf (pid : Bytes) (asks : List (Ask Fd)) : List (Ask Fd) :=
  asks.filter fun a => a.pid = pid

theorem asksOf_append (pid : Bytes) (left right : List (Ask Fd)) :
    asksOf pid (left ++ right) = asksOf pid left ++ asksOf pid right :=
  List.filter_append left right

theorem asksOf_cons (pid : Bytes) (a : Ask Fd) (rest : List (Ask Fd)) :
    asksOf pid (a :: rest) = asksOf pid [a] ++ asksOf pid rest :=
  asksOf_append pid [a] rest

theorem asksOf_other {pid : Bytes} {a : Ask Fd} (other : a.pid ≠ pid) : asksOf pid [a] = [] := by
  simp [asksOf, other]

section Queues

variable (workers : Workers Wid) {queues : Wid → List (Ask Fd)} {wid : Wid} {a : Ask Fd}

/-- A call that is put in the queue of its worker. -/
theorem asksOf_push (home : workers.worker a.pid = wid) (pid : Bytes) :
    asksOf pid (push queues wid a (workers.worker pid)) =
      asksOf pid (queues (workers.worker pid)) ++ asksOf pid [a] := by
  by_cases here : workers.worker pid = wid
  · rw [here, push, Function.update_self, asksOf_append]
  · have other : a.pid ≠ pid := fun same => here (same ▸ home)
    rw [push, Function.update_of_ne here, asksOf_other other, List.append_nil]

/-- A call that is taken from the queue of its worker. -/
theorem asksOf_pop (home : workers.worker a.pid = wid) {rest : List (Ask Fd)}
    (waits : queues wid = a :: rest) (pid : Bytes) :
    asksOf pid (queues (workers.worker pid)) =
      asksOf pid [a] ++ asksOf pid (Function.update queues wid rest (workers.worker pid)) := by
  by_cases here : workers.worker pid = wid
  · rw [here, waits, Function.update_self, asksOf_cons]
  · have other : a.pid ≠ pid := fun same => here (same ▸ home)
    rw [Function.update_of_ne here, asksOf_other other, List.nil_append]

theorem mem_of_push {b : Ask Fd} {other : Wid} (member : b ∈ push queues wid a other) :
    b ∈ queues other ∨ (other = wid ∧ b = a) := by
  by_cases here : other = wid
  · subst here
    rw [push, Function.update_self] at member
    simpa using member
  · rw [push, Function.update_of_ne here] at member
    exact .inl member

theorem mem_of_pop {b : Ask Fd} {rest : List (Ask Fd)} (waits : queues wid = a :: rest)
    {other : Wid} (member : b ∈ Function.update queues wid rest other) : b ∈ queues other := by
  by_cases here : other = wid
  · subst here
    rw [Function.update_self] at member
    exact waits ▸ List.mem_cons_of_mem _ member
  · rwa [Function.update_of_ne here] at member

end Queues

/-! ## The invariant -/

namespace Flow

/-- Where the calls of `player_request` are, and in which order. -/
structure Piped (workers : Workers Wid) (f : Flow Fd Peer Addr Wid N) : Prop where
  owned : f.gate.Owned
  numbered : f.asks.map Ask.rid = List.range f.asks.length
  /-- a frame has been passed to a worker, or its coroutine has not run yet -/
  frames : f.gate.frames = f.asks.map Ask.job ++ f.gate.server.forked
  named : ∀ a ∈ f.asks, a.job.pid = some a.pid
  homed : ∀ wid a, a ∈ f.requests wid ∨ a ∈ f.locks wid → workers.worker a.pid = wid
  line : ∀ pid, ∃ taken, asksOf pid f.asks =
      taken ++ (asksOf pid (f.locks (workers.worker pid)) ++
        asksOf pid (f.requests (workers.worker pid))) ∧
    taken.map Ask.rid = forName (user pid) f.game.net.mgr.requests
  began : ∀ rid, (f.game.net.stage rid).names ≠ none → ∃ a ∈ f.asks, a.rid = rid ∧
    f.game.asked rid = some (a.pid, a.job.pack) ∧ f.game.net.worker rid = workers.worker a.pid

namespace Piped

variable {workers : Workers Wid} {ports : Gate.Ports Fd} {lib : Library N}
  {request : Scalar N → Option (Handler N)} {f : Flow Fd Peer Addr Wid N}

theorem start [Inhabited Wid] : (init : Flow Fd Peer Addr Wid N).Piped workers where
  owned := .start
  numbered := rfl
  frames := rfl
  named := by simp [init]
  homed := by simp [init]
  line pid := ⟨[], rfl, rfl⟩
  began := by simp [init, Game.init, Net.init, Stage.names]

/-- A call has its place in the record. -/
theorem at_rid (piped : f.Piped workers) {a : Ask Fd} (member : a ∈ f.asks) :
    f.asks[a.rid]? = some a := by
  obtain ⟨i, inside, same⟩ := List.mem_iff_getElem.mp member
  have number : (f.asks.map Ask.rid)[i]? = some i := by
    rw [piped.numbered, List.getElem?_range inside]
  rw [List.getElem?_map, List.getElem?_eq_getElem inside, same] at number
  obtain rfl : a.rid = i := by simpa using number
  rw [List.getElem?_eq_getElem inside, same]

/-- Every call has its own number. -/
theorem eq_of_rid (piped : f.Piped workers) {a b : Ask Fd} (first : a ∈ f.asks)
    (second : b ∈ f.asks) (same : a.rid = b.rid) : a = b := by
  have twice := piped.at_rid first
  rw [same, piped.at_rid second] at twice
  exact (Option.some.inj twice).symm

/-- The frame with the number of a call is the one that it is for. -/
theorem frame_at (piped : f.Piped workers) {a : Ask Fd} (member : a ∈ f.asks) :
    f.gate.frames[a.rid]? = some a.job := by
  have here := piped.at_rid member
  have inside : a.rid < (f.asks.map Ask.job).length := by
    rw [List.length_map]
    exact (List.getElem?_eq_some_iff.mp here).1
  rw [piped.frames, List.getElem?_append_left inside, List.getElem?_map, here, Option.map_some]

theorem job_mem (piped : f.Piped workers) {a : Ask Fd} (member : a ∈ f.asks) :
    a.job ∈ f.gate.frames := by
  rw [piped.frames]
  exact List.mem_append_left _ (List.mem_map_of_mem member)

/-- What waits in a queue is a call. -/
theorem mem_asks (piped : f.Piped workers) {wid : Wid} {a : Ask Fd}
    (waits : a ∈ f.requests wid ∨ a ∈ f.locks wid) : a ∈ f.asks := by
  obtain ⟨granted, whole, -⟩ := piped.line a.pid
  have here : a ∈ asksOf a.pid f.asks := by
    rw [whole, piped.homed wid a waits]
    refine List.mem_append_right _ (List.mem_append.mpr ?_)
    rcases waits with inRequests | inLocks
    · exact .inr (List.mem_filter.mpr ⟨inRequests, by simp⟩)
    · exact .inl (List.mem_filter.mpr ⟨inLocks, by simp⟩)
  exact (List.mem_filter.mp here).1

/-- The network service goes on. -/
theorem gate (piped : f.Piped workers) {label : Gate.Label Fd Peer} (apart : label.apart)
    (enabled : f.gate.server.Enabled ports label) :
    { f with gate := f.gate.next label }.Piped workers where
  owned := piped.owned.step enabled
  numbered := piped.numbered
  frames := by
    obtain ⟨jobs, grown⟩ := (f.gate.server.grows_next apart).forked
    simp [Gate.Arrivals.next, ← grown, piped.frames]
  named := piped.named
  homed := piped.homed
  line := piped.line
  began := piped.began

/-- The services other than the gate go on, and no queue moves. -/
theorem game (piped : f.Piped workers) (sane : f.game.Sane) {move : Move Addr Nat Wid N}
    {g' : Game Addr Nat Wid N} (taken : Game.Step lib request f.game move g')
    (noRequest : ∀ rid wid pid data, move ≠ .request rid wid pid data)
    (noLock : ∀ rid names, move ≠ .other (.lock rid names))
    (responses : Wid → List (Nat × Option Bytes)) (ran : List (Handling Nat N)) :
    { f with game := g', responses := responses, ran := ran }.Piped workers where
  owned := piped.owned
  numbered := piped.numbered
  frames := piped.frames
  named := piped.named
  homed := piped.homed
  line pid := by
    rw [sane.requests_kept taken noLock]
    exact piped.line pid
  began rid stands := by
    obtain ⟨follows, asked, worker⟩ := Game.follows taken noRequest rid
    rw [asked, worker]
    exact piped.began rid (follows.names ▸ stands)

/-- The next forked coroutine calls its worker. -/
theorem called (piped : f.Piped workers) {a : Ask Fd} {rest : List (Gate.Job Fd)}
    (forked : f.gate.server.forked = a.job :: rest) (number : a.rid = f.asks.length)
    (named : a.job.pid = some a.pid) (enabled : f.gate.server.Enabled ports .start) :
    { f with
      gate := f.gate.next .start
      asks := f.asks ++ [a]
      requests := push f.requests (workers.worker a.pid) a }.Piped workers where
  owned := piped.owned.step enabled
  numbered := by simp [List.range_succ, piped.numbered, number]
  frames := by simp [Gate.Arrivals.next, Gate.Server.next, forked, piped.frames]
  named b member := by
    rcases List.mem_append.mp member with old | new
    · exact piped.named b old
    · rw [List.mem_singleton.mp new]
      exact named
  homed wid b member := by
    rcases member with waits | locks
    · rcases mem_of_push waits with old | ⟨here, rfl⟩
      · exact piped.homed wid b (.inl old)
      · exact here.symm
    · exact piped.homed wid b (.inr locks)
  line pid := by
    obtain ⟨taken, whole, rids⟩ := piped.line pid
    have pushed : asksOf pid (push f.requests (workers.worker a.pid) a (workers.worker pid)) =
        asksOf pid (f.requests (workers.worker pid)) ++ asksOf pid [a] :=
      asksOf_push workers rfl pid
    refine ⟨taken, ?_, rids⟩
    simp only [asksOf_append, whole, pushed, List.append_assoc]
  began rid stands := by
    obtain ⟨b, member, rest⟩ := piped.began rid stands
    exact ⟨b, List.mem_append_left _ member, rest⟩

/-- A worker gets a call. -/
theorem requested (piped : f.Piped workers) (sane : f.game.Sane) {wid : Wid} {a : Ask Fd}
    {rest : List (Ask Fd)} (waits : f.requests wid = a :: rest) {g' : Game Addr Nat Wid N}
    (taken : Game.Step lib request f.game (.request a.rid wid a.pid a.job.pack) g') :
    { f with
      game := g'
      requests := Function.update f.requests wid rest
      locks := push f.locks wid a }.Piped workers := by
  have first : a ∈ f.requests wid := by simp [waits]
  have home := piped.homed wid a (.inl first)
  have asked := piped.mem_asks (.inl first)
  refine ⟨piped.owned, piped.numbered, piped.frames, piped.named, fun other b member => ?_,
    fun pid => ?_, fun rid stands => ?_⟩
  · rcases member with inRequests | inLocks
    · exact piped.homed other b (.inl (mem_of_pop waits inRequests))
    · rcases mem_of_push inLocks with old | ⟨rfl, rfl⟩
      · exact piped.homed other b (.inr old)
      · exact home
  · obtain ⟨granted, whole, rids⟩ := piped.line pid
    refine ⟨granted, ?_, ?_⟩
    · rw [asksOf_push workers home, whole, asksOf_pop workers home waits]
      simp only [List.append_assoc]
    · rw [sane.requests_kept taken (by simp)]
      exact rids
  · by_cases here : rid = a.rid
    · obtain ⟨-, rfl⟩ := taken
      exact ⟨a, asked, here.symm, by simp [Game.next, here],
        by simp [Game.next, Game.label, Net.next, here, home]⟩
    · obtain ⟨-, rfl⟩ := taken
      have same : ((f.game.next lib request (.request a.rid wid a.pid a.job.pack)).net.stage rid) =
          f.game.net.stage rid := by
        simp [Game.next, Game.label, Net.next, Net.moveTo, here]
      obtain ⟨b, member, own, data, worker⟩ := piped.began rid (same ▸ stands)
      exact ⟨b, member, own, by simpa [Game.next, here] using data,
        by simpa [Game.next, Game.label, Net.next, here] using worker⟩

/-- The manager gets a lock message. -/
theorem locked (piped : f.Piped workers) (sane : f.game.Sane) {wid : Wid} {a : Ask Fd}
    {rest : List (Ask Fd)} (waits : f.locks wid = a :: rest) {g' : Game Addr Nat Wid N}
    (taken : Game.Step lib request f.game (.other (.lock a.rid [user a.pid])) g') :
    { f with
      game := g'
      locks := Function.update f.locks wid rest }.Piped workers := by
  have home := piped.homed wid a (.inr (by simp [waits]))
  refine ⟨piped.owned, piped.numbered, piped.frames, piped.named, fun other b member => ?_,
    fun pid => ?_, fun rid stands => ?_⟩
  · rcases member with inRequests | inLocks
    · exact piped.homed other b (.inl inRequests)
    · exact piped.homed other b (.inr (mem_of_pop waits inLocks))
  · obtain ⟨granted, whole, rids⟩ := piped.line pid
    refine ⟨granted ++ asksOf pid [a], ?_, ?_⟩
    · rw [whole, asksOf_pop workers home waits]
      simp only [List.append_assoc]
    · rw [sane.requests_lock taken, forName_append, forName_singleton, List.map_append, rids]
      by_cases own : a.pid = pid
      · simp [asksOf, own]
      · rw [asksOf_other own, if_neg fun same => own (user_injective same)]
        rfl
  · obtain ⟨follows, asked, worker⟩ := Game.follows taken (by simp) rid
    rw [asked, worker]
    exact piped.began rid (follows.names ▸ stands)

/-- The gate gets a response. -/
theorem answered (piped : f.Piped workers) {job : Gate.Job Fd} {resp : Option Bytes}
    (enabled : f.gate.server.Enabled ports (.answer job resp))
    (responses : Wid → List (Nat × Option Bytes)) (answered : List (Wid × Nat × Option Bytes)) :
    { f with
      gate := f.gate.next (.answer job resp)
      responses := responses
      answered := answered }.Piped workers where
  owned := piped.owned.step enabled
  numbered := piped.numbered
  frames := by
    cases resp <;>
      simp [Gate.Arrivals.next, Gate.Server.next, Gate.Server.send, piped.frames]
  named := piped.named
  homed := piped.homed
  line := piped.line
  began := piped.began

end Piped

end Flow

end WindLtask.System
