import WindLtask.System.Order

/-!
# Nothing is refused

The messages at the heads of the queues can always be taken: a request finds the
state of its player, since its frame has come after the login, and its lock
message is what its query waits for.
-/

set_option linter.unusedSectionVars false

namespace WindLtask.System

open Manager World Process

variable {Fd Peer Addr Wid N : Type} [DecidableEq Fd] [DecidableEq Addr] [DecidableEq Wid]
  [DecidableEq N]

namespace Game

variable {g : Game Addr Nat Wid N}

/-- A coroutine that has no query has asked for nothing. -/
theorem Sane.idle_of_unnamed (sane : Sane g) {rid : Nat}
    (unnamed : (g.net.stage rid).names = none) : g.net.mgr.phase rid = .idle := by
  have good := sane.coherent.good rid
  unfold Net.Good at good
  cases stage : g.net.stage rid with
  | idle => simpa only [stage] using good
  | _ => simp [stage, Stage.names] at unnamed

/-- A query that the manager does not know yet has its lock message under way. -/
theorem Sane.asking_of_idle (sane : Sane g) {rid : Nat} {names : List Bytes}
    (named : (g.net.stage rid).names = some names) (idle : g.net.mgr.phase rid = .idle) :
    g.net.stage rid = .asking names := by
  have notHeld : ∀ held, g.net.mgr.phase rid ≠ .held held := fun held same => by
    rw [idle] at same
    cases same
  have good := sane.coherent.good rid
  unfold Net.Good at good
  cases stage : g.net.stage rid <;> simp only [stage] at good named
  case idle => cases named
  case asking => exact congrArg Stage.asking (Option.some.inj named)
  case locking =>
    rcases good.1 with queued | held
    · rw [idle] at queued
      cases queued
    · exact absurd held (notHeld _)
  case calling | answered | running | closed | unlocking => exact absurd good.1.2 (notHeld _)
  case raised => exact absurd good (notHeld _)
  case broken => exact absurd good.2 (notHeld _)
  case returned =>
    rcases good.2 with ⟨left, stuck⟩ | finished | ⟨name, rest, parked, -⟩
    · rw [idle] at stuck
      cases stuck
    · rw [idle] at finished
      cases finished
    · have unlocking := (sane.coherent.sound.suspended rid _).mpr ⟨name, rest, parked, rfl⟩
      rw [idle] at unlocking
      cases unlocking

end Game

namespace Flow

variable {workers : Workers Wid} {ports : Gate.Ports Fd} {lib : Library N}
  {request : Scalar N → Option (Handler N)} {f f' : Flow Fd Peer Addr Wid N}

/-- A call waits in one place only. -/
theorem Piped.single (piped : f.Piped workers) {a : Ask Fd} {pid : Bytes} (own : a.pid = pid)
    {before after : List (Ask Fd)}
    (whole : asksOf pid f.asks = before ++ (asksOf pid [a] ++ after)) : a ∉ after := by
  have numbers : (f.asks.map Ask.rid).Nodup := by
    rw [piped.numbered]
    exact List.nodup_range
  have once : (asksOf pid f.asks).Nodup := (List.Nodup.of_map _ numbers).filter _
  rw [whole, show asksOf pid [a] = [a] by simp [asksOf, own]] at once
  exact (List.nodup_cons.mp (List.nodup_append.mp once).2.1).1

/-- The call at the head of a queue of requests is in no other place of those queues. -/
theorem Piped.apart_requests (piped : f.Piped workers) {wid : Wid} {a : Ask Fd}
    {rest : List (Ask Fd)} (waits : f.requests wid = a :: rest) {other : Wid} {b : Ask Fd}
    (member : b ∈ Function.update f.requests wid rest other) : b.rid ≠ a.rid := by
  intro same
  have inFirst : a ∈ f.requests wid := by simp [waits]
  obtain rfl := piped.eq_of_rid (piped.mem_asks (.inl (mem_of_pop waits member)))
    (piped.mem_asks (.inl inFirst)) same
  have home := piped.homed wid b (.inl inFirst)
  obtain rfl : other = wid :=
    (piped.homed other b (.inl (mem_of_pop waits member))).symm.trans home
  obtain ⟨taken, whole, -⟩ := piped.line b.pid
  rw [home, waits, asksOf_cons, ← List.append_assoc] at whole
  refine piped.single rfl whole ?_
  rw [Function.update_self] at member
  exact List.mem_filter.mpr ⟨member, by simp⟩

/-- The call at the head of a queue of lock messages is in no other place of those queues. -/
theorem Piped.apart_locks (piped : f.Piped workers) {wid : Wid} {a : Ask Fd}
    {rest : List (Ask Fd)} (waits : f.locks wid = a :: rest) {other : Wid} {b : Ask Fd}
    (member : b ∈ Function.update f.locks wid rest other) : b.rid ≠ a.rid := by
  intro same
  have inFirst : a ∈ f.locks wid := by simp [waits]
  obtain rfl := piped.eq_of_rid (piped.mem_asks (.inr (mem_of_pop waits member)))
    (piped.mem_asks (.inr inFirst)) same
  have home := piped.homed wid b (.inr inFirst)
  obtain rfl : other = wid :=
    (piped.homed other b (.inr (mem_of_pop waits member))).symm.trans home
  obtain ⟨taken, whole, -⟩ := piped.line b.pid
  rw [home, waits, asksOf_cons, List.append_assoc] at whole
  refine piped.single rfl whole (List.mem_append_left _ ?_)
  rw [Function.update_self] at member
  exact List.mem_filter.mpr ⟨member, by simp⟩

/-- What the messages in the queues find. -/
structure Ready (f : Flow Fd Peer Addr Wid N) : Prop where
  stated : ∀ pid n, f.gate.owner pid = some n → (f.game.net.mgr.proc.state (user pid)).isSome
  fresh : ∀ wid, ∀ a ∈ f.requests wid, (f.game.net.stage a.rid).names = none
  asking : ∀ wid, ∀ a ∈ f.locks wid, (f.game.net.stage a.rid).names = some [user a.pid] ∧
    a.rid ∉ f.game.net.mgr.requests.map Prod.fst

namespace Ready

theorem start [Inhabited Wid] : (init : Flow Fd Peer Addr Wid N).Ready where
  stated := by simp [init, Gate.Arrivals.init]
  fresh := by simp [init]
  asking := by simp [init]

/-- The services other than the gate go on, and no queue moves. -/
theorem game (ready : f.Ready) (sane : f.game.Sane) {move : Move Addr Nat Wid N}
    {g' : Game Addr Nat Wid N} (taken : Game.Step lib request f.game move g')
    (noRequest : ∀ rid wid pid data, move ≠ .request rid wid pid data)
    (noLock : ∀ rid names, move ≠ .other (.lock rid names))
    (responses : Wid → List (Nat × Option Bytes)) (ran : List (Handling Nat N)) :
    { f with game := g', responses := responses, ran := ran }.Ready where
  stated pid n owner := sane.stays taken (ready.stated pid n owner)
  fresh wid a waits :=
    (Game.follows taken noRequest a.rid).1.names.trans (ready.fresh wid a waits)
  asking wid a waits := by
    obtain ⟨names, absent⟩ := ready.asking wid a waits
    exact ⟨(Game.follows taken noRequest a.rid).1.names.trans names, by
      rw [sane.requests_kept taken noLock]
      exact absent⟩

/-- The network service goes on. -/
theorem gate (ready : f.Ready) {label : Gate.Label Fd Peer}
    (enabled : f.Enabled ports lib request (.gate label)) :
    { f with gate := f.gate.next label }.Ready where
  stated pid n owner := by
    obtain ⟨-, -, returned⟩ := enabled
    cases label with
    | loggedIn answers =>
        cases loop : f.gate.server.loop with
        | login fd pid' fds =>
            by_cases logged : playerLogin f.gate.server.players pid' answers
            · by_cases here : pid = pid'
              · exact here ▸ returned answers fd pid' fds rfl loop logged
              · exact ready.stated pid n
                  (by simpa [Gate.Arrivals.next, loop, logged, here] using owner)
            · exact ready.stated pid n (by simpa [Gate.Arrivals.next, loop, logged] using owner)
        | _ => exact ready.stated pid n (by simpa [Gate.Arrivals.next, loop] using owner)
    | _ => exact ready.stated pid n owner
  fresh := ready.fresh
  asking := ready.asking

theorem step (ready : f.Ready) (kept : f.Kept workers lib request)
    {event : FlowEvent Fd Peer Addr Wid N} (taken : Step workers ports lib request f event f') :
    f'.Ready := by
  obtain ⟨sane, single, piped, served⟩ := kept
  obtain ⟨enabled, rfl⟩ := taken
  cases event with
  | gate label => exact ready.gate enabled
  | start =>
      have enabled : f.gate.server.Enabled ports .start := enabled
      obtain ⟨job, rest, forked⟩ := List.exists_cons_of_ne_nil enabled.2
      cases named : job.pid with
      | none =>
          simp only [next, forked, named]
          exact ⟨ready.stated, ready.fresh, ready.asking⟩
      | some pid =>
          simp only [next, forked, named]
          refine ⟨ready.stated, fun wid a waits => ?_, ready.asking⟩
          rcases mem_of_push waits with old | ⟨-, rfl⟩
          · exact ready.fresh wid a old
          · -- the number is new, so nothing has begun under it
            by_contra began
            obtain ⟨b, asked, number, -⟩ := piped.began f.asks.length began
            have inside : b.rid ∈ List.range f.asks.length := by
              rw [← piped.numbered]
              exact List.mem_map_of_mem asked
            exact Nat.lt_irrefl _ (number ▸ List.mem_range.mp inside)
  | login rid pid t =>
      have taken : Game.Step lib request f.game (.login rid pid t) _ := ⟨enabled.2, rfl⟩
      exact ready.game sane taken (by simp) (by simp) f.responses f.ran
  | request wid =>
      obtain ⟨a, rest, waits, enabled⟩ := enabled
      have taken : Game.Step lib request f.game (.request a.rid wid a.pid a.job.pack) _ :=
        ⟨enabled, rfl⟩
      have first : a ∈ f.requests wid := by simp [waits]
      have unbegun := ready.fresh wid a first
      have stage : ∀ rid, (f.game.next lib request
          (.request a.rid wid a.pid a.job.pack)).net.stage rid =
          if rid = a.rid then .asking [user a.pid] else f.game.net.stage rid := by
        intro rid
        by_cases here : rid = a.rid <;>
          simp [Game.next, Game.label, Net.next, Net.moveTo, here]
      simp only [next, waits]
      refine ⟨fun pid n owner => sane.stays taken (ready.stated pid n owner),
        fun other b member => ?_, fun other b member => ?_⟩
      · rw [stage, if_neg (piped.apart_requests waits member)]
        exact ready.fresh other b (mem_of_pop waits member)
      · rw [stage, sane.requests_kept taken (by simp)]
        rcases mem_of_push member with old | ⟨-, rfl⟩
        · have apart : b.rid ≠ a.rid := by
            intro same
            have named := (ready.asking other b old).1
            rw [same, unbegun] at named
            cases named
          rw [if_neg apart]
          exact ready.asking other b old
        · rw [if_pos rfl]
          refine ⟨rfl, fun requested => ?_⟩
          exact (sane.coherent.sound.requested b.rid).mp requested (sane.idle_of_unnamed unbegun)
  | lock wid =>
      obtain ⟨a, rest, waits, enabled⟩ := enabled
      have taken : Game.Step lib request f.game (.other (.lock a.rid [user a.pid])) _ :=
        ⟨enabled, rfl⟩
      simp only [next, waits]
      refine ⟨fun pid n owner => sane.stays taken (ready.stated pid n owner),
        fun other b member => ?_, fun other b member => ?_⟩
      · exact (Game.follows taken (by simp) b.rid).1.names.trans (ready.fresh other b member)
      · obtain ⟨named, absent⟩ := ready.asking other b (mem_of_pop waits member)
        refine ⟨(Game.follows taken (by simp) b.rid).1.names.trans named, ?_⟩
        rw [sane.requests_lock taken, List.map_append, List.mem_append]
        rintro (old | new)
        · exact absent old
        · exact piped.apart_locks waits member (List.mem_singleton.mp new)
  | handle rid =>
      have taken : Game.Step lib request f.game (.handle rid) _ := ⟨enabled, rfl⟩
      obtain ⟨q, h, addr, handles⟩ := sane.handles taken
      simp only [next, handles.call]
      exact ready.game sane taken (by simp) (by simp) _ _
  | answer wid =>
      obtain ⟨e, rest, a, waits, asked, -⟩ := enabled
      simp only [next, waits, asked]
      exact ⟨ready.stated, ready.fresh, ready.asking⟩
  | other label =>
      obtain ⟨noLock, enabled⟩ := enabled
      have taken : Game.Step lib request f.game (.other label) _ := ⟨enabled, rfl⟩
      exact ready.game sane taken (by simp) (by simpa using noLock) f.responses f.ran

end Ready

/-- A worker can take the next call, and the manager the next lock message. -/
structure Accepts (workers : Workers Wid) (lib : Library N)
    (request : Scalar N → Option (Handler N)) (f : Flow Fd Peer Addr Wid N) : Prop where
  call : ∀ wid a rest, f.requests wid = a :: rest →
    f.game.Enabled lib request (.request a.rid wid a.pid a.job.pack)
  lock : ∀ wid a rest, f.locks wid = a :: rest →
    f.game.Enabled lib request (.other (.lock a.rid [user a.pid]))

theorem Ready.accepts (ready : f.Ready) (kept : f.Kept workers lib request) :
    f.Accepts workers lib request where
  call wid a rest waits := by
    have first : a ∈ f.requests wid := by simp [waits]
    have asked := kept.piped.mem_asks (.inl first)
    obtain ⟨-, pid, named, owner⟩ := kept.piped.owned.frames a.job (kept.piped.job_mem asked)
    have player : pid = a.pid := Option.some.inj (named.symm.trans (kept.piped.named a asked))
    refine ⟨ready.stated a.pid _ (player ▸ owner), _, rfl, ?_⟩
    have unnamed := ready.fresh wid a first
    cases stage : f.game.net.stage a.rid <;> simp_all [Net.Enabled, Stage.names]
  lock wid a rest waits := by
    have first : a ∈ f.locks wid := by simp [waits]
    obtain ⟨named, absent⟩ := ready.asking wid a first
    have idle : f.game.net.mgr.phase a.rid = .idle := by
      by_contra began
      exact absent ((kept.sane.coherent.sound.requested a.rid).mpr began)
    refine ⟨rfl, _, rfl, ?_⟩
    simp [Net.Enabled, kept.sane.asking_of_idle named idle]

/-- In every state of every run the messages at the heads of the queues can be taken. -/
theorem accepts_of_run [Inhabited Wid]
    {steps : List (Flow Fd Peer Addr Wid N × FlowEvent Fd Peer Addr Wid N)}
    {f : Flow Fd Peer Addr Wid N} (run : Lib.Run (Step workers ports lib request) init steps f) :
    ∀ v ∈ Lib.visited steps f, v.Accepts workers lib request := by
  have kept := run.invariant_visited (fun _ _ => True)
    (fun v => v.Kept workers lib request ∧ v.Ready) ⟨.start, .start⟩
    (fun _ _ _ inv _ taken => ⟨inv.1.step taken, inv.2.step inv.1 taken⟩) (fun _ _ => trivial)
  exact fun v member => (kept v member).2.accepts (kept v member).1

end Flow

end WindLtask.System
