import WindLtask.System.Channels
import WindLtask.System.Gold

/-!
# The order of a connection's requests

All frames of a connection go to one worker, which asks the manager for the state
of the player in their order, and the manager grants it in that order.  So the
handlers run one by one in that order, each on the player that the one before has
left, and the responses go back in that order.
-/

set_option linter.unusedSectionVars false

namespace WindLtask.System

open Manager World Process

/-! ## The line in front of a player's state -/

/-- The longest run that has not come to the last of those granted. -/
theorem granted_eq {α : Type} {ran granted waitting : List α} {x : α}
    (starts : ran <+: granted ++ waitting) (last : granted.getLast? = some x)
    (once : granted.Nodup) (all : ∀ y ∈ granted, y ≠ x → y ∈ ran) (fresh : x ∉ ran) :
    granted = ran ++ [x] := by
  obtain ⟨earlier, rfl⟩ := List.getLast?_eq_some_iff.mp last
  obtain ⟨onceEarlier, -, apart⟩ := List.nodup_append.mp once
  have apart : x ∉ earlier := fun member => apart x member x (by simp) rfl
  have inside : earlier ⊆ ran := fun y member =>
    all y (List.mem_append_left _ member) fun same => apart (same ▸ member)
  have reached : earlier <+: ran := by
    refine List.prefix_of_prefix_length_le ?_ starts
      (onceEarlier.length_le_of_subset inside)
    rw [List.append_assoc]
    exact List.prefix_append _ _
  obtain ⟨more, rfl⟩ := reached
  rw [List.append_assoc, List.prefix_append_right_inj] at starts
  cases more with
  | nil => rw [List.append_nil]
  | cons y more =>
      obtain rfl : y = x := (List.cons_prefix_cons.mp starts).1
      simp at fresh

section Net

variable {Name Addr Rid Wid K V : Type} [DecidableEq Name] [DecidableEq Addr] [DecidableEq Rid]
  [DecidableEq Wid] [DecidableEq K] [DecidableEq V]

namespace Net

variable {conf : Persistence Name K V} {s s' : Net Name Addr Rid Wid K V}

/-- A request that neither waits nor covers its name any more has closed. -/
theorem Coherent.past_of_granted (coherent : Coherent s) {rid : Rid} {n : Name}
    (asked : (rid, [n]) ∈ s.mgr.requests) (granted : (rid, [n]) ∉ s.mgr.proc.waitting)
    (free : ¬ s.mgr.Covers rid n) : (s.stage rid).past := by
  have sound := coherent.sound
  have began : s.mgr.phase rid ≠ .idle :=
    (sound.requested rid).mp (List.mem_map_of_mem asked)
  have notHeld : ∀ names, s.mgr.phase rid ≠ .held names := by
    intro names held
    obtain rfl := sound.names_eq (sound.named rid names (.inr held)) asked
    exact free (covers_of_held held n (List.mem_singleton_self n))
  have notQueued : ∀ names, s.mgr.phase rid ≠ .queued names := by
    intro names queued
    obtain rfl := sound.names_eq (sound.named rid names (.inl queued)) asked
    exact granted ((sound.queued rid [n]).mpr queued)
  have good := coherent.good rid
  unfold Good at good
  cases stage : s.stage rid <;> rw [stage] at good
  case idle => exact absurd good began
  case asking => exact absurd good.1 began
  case locking names =>
    rcases good.1 with queued | held
    · exact absurd queued (notQueued names)
    · exact absurd held (notHeld names)
  case raised names => exact absurd good (notHeld names)
  case calling | answered | running => exact absurd good.1.2 (notHeld _)
  case closed | unlocking | returned | broken => trivial

/-- What has ended has closed, or ended with an error and keeps its names. -/
theorem Coherent.held_of_ended (coherent : Coherent s) {rid : Rid} {names : List Name}
    (done : (s.stage rid).ended) (named : (s.stage rid).names = some names)
    (open_ : ¬ (s.stage rid).past) : ∀ n ∈ names, s.mgr.Covers rid n := by
  have good := coherent.good rid
  unfold Good at good
  cases stage : s.stage rid <;> rw [stage] at good done named open_
  case raised =>
    obtain rfl := Option.some.inj named
    exact covers_of_held good
  case closed | unlocking | returned | broken => exact absurd trivial open_
  all_goals cases done

end Net

end Net

variable {Addr Rid Wid N : Type} [DecidableEq Addr] [DecidableEq Rid] [DecidableEq Wid]
  [DecidableEq N]

namespace Game

variable {lib : Library N} {request : Scalar N → Option (Handler N)} {g g' : Game Addr Rid Wid N}

/-- The state of the player with all changes so far. -/
def Value (g : Game Addr Rid Wid N) (pid : Bytes) (player : LuaTable N) : Prop :=
  ∃ addr t value, g.net.born addr = some (user pid, t) ∧
    replay t (g.net.log addr) = some value ∧ value.Same player

/-- Two tables that a player's state has are the same. -/
theorem Sane.same_of_value (sane : Sane g) {pid : Bytes} {first second : LuaTable N}
    (left : g.Value pid first) (right : g.Value pid second) : first.Same second := by
  obtain ⟨addr, t, value, born, reached, same⟩ := left
  obtain ⟨addr', t', value', born', reached', same'⟩ := right
  obtain rfl := sane.settled.single born born'
  obtain ⟨-, rfl⟩ : user pid = user pid ∧ t = t' := by simpa using born.symm.trans born'
  obtain rfl := Option.some.inj (reached.symm.trans reached')
  exact same.symm.trans same'

/-- Where no request of the player closes, the state keeps its value. -/
theorem Value.keep {pid : Bytes} {player : LuaTable N} (value : g.Value pid player)
    (born : ∀ addr entry, g.net.born addr = some entry → g'.net.born addr = some entry)
    (log : ∀ addr t, g.net.born addr = some (user pid, t) → g'.net.log addr = g.net.log addr) :
    g'.Value pid player := by
  obtain ⟨addr, t, result, there, reached, same⟩ := value
  exact ⟨addr, t, result, born _ _ there, by rw [log addr t there, reached], same⟩

/-- A handler call and the next one for the same player. -/
structure Leads (lib : Library N) (request : Scalar N → Option (Handler N))
    (h h' : Handling Rid N) : Prop where
  returned : h.Returned lib request
  same : (h.left lib request).Same h'.self

/-- What a query got is the value of the state at that moment. -/
theorem Handles.value {rid : Rid} {q : Query Bytes Addr (Scalar N) (Scalar N)}
    {h : Handling Rid N} {addr : Addr} (handles : Handles lib request g g' rid q h addr) :
    g.Value h.pid h.self := by
  obtain ⟨t, value, born, reached, same⟩ := handles.calling.born
  exact ⟨addr, t, value, born, reached, same⟩

/-- What a handler has left is the value of the state once its query has closed. -/
theorem Handles.left {rid : Rid} {q : Query Bytes Addr (Scalar N) (Scalar N)}
    {h : Handling Rid N} {addr : Addr} (handles : Handles lib request g g' rid q h addr)
    (sane' : Sane g') (past : (g'.net.stage rid).past) :
    h.Returned lib request ∧ g'.Value h.pid (h.left lib request) := by
  rcases handles.ends with ⟨returned, -, -, change, closed⟩ | ⟨-, -, stage, -⟩
  · obtain ⟨t, -, result, born, -, -, reached, same⟩ :=
      sane'.serialized.returned g.net.closed _ [] closed _ List.mem_cons_self
    exact ⟨returned, addr, t, result, born, by rw [Net.log, closed]; exact reached, same⟩
  · rw [stage] at past
    exact past.elim

/-- The request of another player leaves the value alone. -/
theorem Handles.other {rid : Rid} {q : Query Bytes Addr (Scalar N) (Scalar N)}
    {h : Handling Rid N} {addr : Addr} (handles : Handles lib request g g' rid q h addr)
    {pid : Bytes} (apart : pid ≠ h.pid) (n : Addr) (t : LuaTable N)
    (born : g.net.born n = some (user pid, t)) : g'.net.log n = g.net.log n := by
  rcases handles.ends with ⟨-, -, -, change, closed⟩ | ⟨-, -, -, closed⟩
  · have elsewhere : addr ≠ n := by
      rintro rfl
      obtain ⟨t', -, born', -⟩ := handles.calling.born
      have twice := born.symm.trans born'
      exact apart (user_injective (by simpa using congrArg (Option.map Prod.fst) twice))
    rw [Net.log, closed]
    exact Net.log_of_absent rid (by simpa using elsewhere)
  · rw [Net.log, closed]
    rfl

theorem Sane.requests_grow (sane : Sane g) {move : Move Addr Rid Wid N}
    (taken : Step lib request g move g') : g.net.mgr.requests <+: g'.net.mgr.requests := by
  obtain ⟨label, makes, net⟩ := net_step taken
  rw [sane.coherent.requests_next net]
  exact List.prefix_append _ _

theorem born_kept {move : Move Addr Rid Wid N} (taken : Step lib request g move g')
    (addr : Addr) (entry : Bytes × LuaTable N) (born : g.net.born addr = some entry) :
    g'.net.born addr = some entry := by
  obtain ⟨label, makes, enabled, net⟩ := net_step taken
  rw [net]
  exact Net.born_grows enabled born

end Game

/-! ## What has run -/

theorem Stage.names_of_ended {Name K V : Type} {stage : Stage Name Addr K V} (done : stage.ended) :
    stage.names ≠ none := by
  cases stage <;> simp_all [Stage.ended, Stage.names]

variable {Fd Peer : Type} [DecidableEq Fd]

namespace Flow

/-- The handler calls for one player, the first one first. -/
def ranFor (f : Flow Fd Peer Addr Wid N) (pid : Bytes) : List (Handling Nat N) :=
  f.ran.filter fun h => h.pid = pid

/-- What `network.send` gets for a response. -/
def passed (asks : List (Ask Fd)) (e : Nat × Option Bytes) : Option (Fd × Bytes × Option Nat) :=
  asks[e.1]?.bind fun a => e.2.map fun message => (a.job.fd, message, some a.job.accept)

/-- What has run, and what came back to the gate. -/
structure Served (workers : Workers Wid) (lib : Library N)
    (request : Scalar N → Option (Handler N)) (f : Flow Fd Peer Addr Wid N) : Prop where
  ended : ∀ h ∈ f.ran, (f.game.net.stage h.rid).ended
  ran : ∀ rid, (f.game.net.stage rid).past → rid ∈ f.ran.map Handling.rid
  own : ∀ h ∈ f.ran, ∃ a ∈ f.asks, a.rid = h.rid ∧ a.pid = h.pid ∧ a.job.pack = h.data
  order : ∀ pid, (f.ranFor pid).map Handling.rid <+: forName (user pid) f.game.net.mgr.requests
  sees : ∀ pid, (f.ranFor pid).IsChain (Game.Leads lib request)
  value : ∀ pid, ∀ h ∈ (f.ranFor pid).getLast?, (f.game.net.stage h.rid).past →
    h.Returned lib request ∧ f.game.Value pid (h.left lib request)
  responses : ∀ wid, (f.ran.filter fun h => workers.worker h.pid = wid).map
      (fun h => (h.rid, h.response lib request)) =
    (f.answered.filter fun e => e.1 = wid).map Prod.snd ++ f.responses wid
  sent : (f.gate.server.sent.filter fun m => m.asked.isSome).map
      (fun m => (m.fd, m.message, m.asked)) = f.answered.filterMap fun e => passed f.asks e.2

namespace Served

variable {workers : Workers Wid} {ports : Gate.Ports Fd} {lib : Library N}
  {request : Scalar N → Option (Handler N)} {f : Flow Fd Peer Addr Wid N}

theorem start [Inhabited Wid] : (init : Flow Fd Peer Addr Wid N).Served workers lib request where
  ended := by simp [init]
  ran := by simp [init, Game.init, Net.init, Stage.past]
  own := by simp [init]
  order pid := List.nil_prefix
  sees pid := List.isChain_nil
  value := by simp [init, ranFor]
  responses wid := rfl
  sent := rfl

/-- The network service goes on. -/
theorem gate (served : f.Served workers lib request) {label : Gate.Label Fd Peer}
    (apart : label.apart) : { f with gate := f.gate.next label }.Served workers lib request where
  ended := served.ended
  ran := served.ran
  own := served.own
  order := served.order
  sees := served.sees
  value := served.value
  responses := served.responses
  sent := by
    obtain ⟨messages, grown, unasked⟩ := (f.gate.server.grows_next apart).sent
    have none_new : messages.filter (fun m => m.asked.isSome) = [] :=
      List.filter_eq_nil_iff.mpr fun m member => by simp [unasked m member]
    simp only [Gate.Arrivals.next, grown, List.filter_append, none_new, List.append_nil]
    exact served.sent

/-- The services other than the gate go on, and no request is handled. -/
theorem game (served : f.Served workers lib request) (sane : f.game.Sane)
    {move : Move Addr Nat Wid N} {g' : Game Addr Nat Wid N}
    (taken : Game.Step lib request f.game move g') (other : ∀ rid, move ≠ .handle rid)
    (requests locks : Wid → List (Ask Fd)) :
    { f with game := g', requests := requests, locks := locks }.Served workers lib request where
  ended h member := by
    have done := served.ended h member
    exact (Game.goes_on taken (Stage.names_of_ended done)).1.ended done
  ran rid past := served.ran rid ((Game.past_iff taken (other rid)).mp past)
  own := served.own
  order pid := by
    obtain ⟨more, grown⟩ := sane.requests_grow taken
    rw [← grown, forName_append]
    exact (served.order pid).trans (List.prefix_append _ _)
  sees := served.sees
  value pid h last past := by
    obtain ⟨returned, value⟩ := served.value pid h last
      ((Game.past_iff taken (other h.rid)).mp past)
    have closed : g'.net.closed = f.game.net.closed := by
      rcases sane.answers taken with ⟨closed, -⟩ | ⟨rid, -, -, same, -⟩
      · exact closed
      · exact absurd same (other rid)
    exact ⟨returned, value.keep (Game.born_kept taken) fun addr t _ => by
      rw [Net.log, closed, Net.log]⟩
  responses := served.responses
  sent := served.sent

/-- A response that the gate has got belongs to a handler call. -/
theorem ask_of_answered (served : f.Served workers lib request) {e : Wid × Nat × Option Bytes}
    (got : e ∈ f.answered) : ∃ h ∈ f.ran, h.rid = e.2.1 ∧ workers.worker h.pid = e.1 := by
  have back : e.2 ∈ (f.ran.filter fun h => workers.worker h.pid = e.1).map
      (fun h => (h.rid, h.response lib request)) := by
    rw [served.responses e.1]
    exact List.mem_append_left _ (List.mem_map_of_mem (List.mem_filter.mpr ⟨got, by simp⟩))
  obtain ⟨h, member, same⟩ := List.mem_map.mp back
  obtain ⟨ran, home⟩ := List.mem_filter.mp member
  exact ⟨h, ran, congrArg Prod.fst same, of_decide_eq_true home⟩

/-- The next forked coroutine calls its worker. -/
theorem called (served : f.Served workers lib request) (piped : f.Piped workers) {a : Ask Fd}
    {rest : List (Gate.Job Fd)} (forked : f.gate.server.forked = a.job :: rest)
    (requests : Wid → List (Ask Fd)) :
    { f with
      gate := f.gate.next .start
      asks := f.asks ++ [a]
      requests := requests }.Served workers lib request where
  ended := served.ended
  ran := served.ran
  own h member := by
    obtain ⟨b, asked, rest⟩ := served.own h member
    exact ⟨b, List.mem_append_left _ asked, rest⟩
  order := served.order
  sees := served.sees
  value := served.value
  responses := served.responses
  sent := by
    have same : (f.gate.server.next .start).sent = f.gate.server.sent := by
      simp [Gate.Server.next, forked]
    simp only [Gate.Arrivals.next, same, served.sent]
    refine List.filterMap_congr fun e got => ?_
    obtain ⟨h, ran, own, -⟩ := served.ask_of_answered got
    obtain ⟨b, asked, number, -⟩ := served.own h ran
    have inside := (List.getElem?_eq_some_iff.mp (piped.at_rid asked)).1
    rw [number, own] at inside
    rw [passed, passed, List.getElem?_append_left inside]

/-- The gate gets a response. -/
theorem answered (served : f.Served workers lib request) {wid : Wid} {e : Nat × Option Bytes}
    {rest : List (Nat × Option Bytes)} (waits : f.responses wid = e :: rest) {a : Ask Fd}
    (asked : f.asks[e.1]? = some a) :
    { f with
      gate := f.gate.next (.answer a.job e.2)
      responses := Function.update f.responses wid rest
      answered := f.answered ++ [(wid, e)] }.Served workers lib request where
  ended := served.ended
  ran := served.ran
  own := served.own
  order := served.order
  sees := served.sees
  value := served.value
  responses other := by
    rw [served.responses other]
    by_cases here : other = wid
    · subst here
      simp [waits]
    · simp [here, Ne.symm here]
  sent := by
    have grown : (((f.gate.server.next (.answer a.job e.2)).sent.filter
        fun m => m.asked.isSome).map fun m => (m.fd, m.message, m.asked)) =
        ((f.gate.server.sent.filter fun m => m.asked.isSome).map
          fun m => (m.fd, m.message, m.asked)) ++ (passed f.asks e).toList := by
      rw [passed, asked]
      cases resp : e.2 <;> simp [Gate.Server.next, Gate.Server.send]
    simp only [Gate.Arrivals.next, grown, served.sent, List.filterMap_append]
    cases message : passed f.asks e <;> simp [message]

/-- The player of a request that the manager has. -/
theorem ask_of_request (piped : f.Piped workers) {rid : Nat} {pid : Bytes}
    (requested : (rid, [user pid]) ∈ f.game.net.mgr.requests) :
    ∃ a ∈ f.asks, a.rid = rid ∧ a.pid = pid := by
  obtain ⟨taken, whole, rids⟩ := piped.line pid
  have member : rid ∈ taken.map Ask.rid := rids ▸ mem_forName.mpr requested
  obtain ⟨a, inTaken, number⟩ := List.mem_map.mp member
  have own : a ∈ asksOf pid f.asks := whole ▸ List.mem_append_left _ inTaken
  obtain ⟨asked, same⟩ := List.mem_filter.mp own
  exact ⟨a, asked, number, of_decide_eq_true same⟩

/-- The request that is handled is the next one in the line for its player. -/
theorem next_in_line (served : f.Served workers lib request) (piped : f.Piped workers)
    (sane : f.game.Sane) (single : f.game.net.mgr.Single) {g' : Game Addr Nat Wid N} {rid : Nat}
    {q : Query Bytes Addr (Scalar N) (Scalar N)} {h : Handling Nat N} {addr : Addr}
    (handles : Game.Handles lib request f.game g' rid q h addr) :
    (f.ranFor h.pid).map Handling.rid ++ [rid] <+:
      forName (user h.pid) f.game.net.mgr.requests := by
  have sound := sane.coherent.sound
  have covers := handles.covers sane
  obtain ⟨granted, whole, last⟩ := single.line (user h.pid)
  have once : (granted ++ forName (user h.pid) f.game.net.mgr.proc.waitting).Nodup := by
    rw [← whole]
    exact sound.once.sublist (List.filter_sublist.map Prod.fst)
  obtain ⟨onceGranted, -, apart⟩ := List.nodup_append.mp once
  have fresh : rid ∉ (f.ranFor h.pid).map Handling.rid := by
    intro member
    obtain ⟨h', inRan, same⟩ := List.mem_map.mp member
    have done := served.ended h' (List.mem_filter.mp inRan).1
    rw [same, handles.stage] at done
    cases done
  have all : ∀ y ∈ granted, y ≠ rid → y ∈ (f.ranFor h.pid).map Handling.rid := by
    intro y member other
    have requested : (y, [user h.pid]) ∈ f.game.net.mgr.requests :=
      mem_forName.mp (whole ▸ List.mem_append_left _ member)
    have past := sane.coherent.past_of_granted requested
      (fun waits => apart y member y (mem_forName.mpr waits) rfl)
      fun covered => other (sane.coherent.exclusive.single _ y rid covered covers)
    obtain ⟨h', ran, same⟩ := List.mem_map.mp (served.ran y past)
    obtain ⟨a, asked, number, own⟩ := ask_of_request piped requested
    obtain ⟨b, asked', number', own', -⟩ := served.own h' ran
    obtain rfl := piped.eq_of_rid asked asked' (number.trans (same.symm.trans number'.symm))
    refine List.mem_map.mpr ⟨h', List.mem_filter.mpr ⟨ran, ?_⟩, same⟩
    exact decide_eq_true (own'.symm.trans own)
  have starts := served.order h.pid
  rw [whole] at starts ⊢
  rw [granted_eq starts (last rid covers) onceGranted all fresh]
  exact List.prefix_append _ _

/-- The handler of the last request has returned when the next one is called. -/
theorem leads (served : f.Served workers lib request) (piped : f.Piped workers)
    (sane : f.game.Sane) {g' : Game Addr Nat Wid N} {rid : Nat}
    {q : Query Bytes Addr (Scalar N) (Scalar N)} {h : Handling Nat N} {addr : Addr}
    (handles : Game.Handles lib request f.game g' rid q h addr) :
    ∀ h' ∈ (f.ranFor h.pid).getLast?, Game.Leads lib request h' h := by
  intro h' last
  obtain ⟨ran, own⟩ := List.mem_filter.mp (List.mem_of_getLast? last)
  have own : h'.pid = h.pid := of_decide_eq_true own
  have done := served.ended h' ran
  have past : (f.game.net.stage h'.rid).past := by
    -- otherwise it has the state locked for good, and so has `rid`
    by_contra open_
    obtain ⟨names, named⟩ := Option.ne_none_iff_exists'.mp (Stage.names_of_ended done)
    obtain ⟨pid, data, asked, rfl, -⟩ := sane.asks h'.rid names named
    obtain ⟨a, member, number, player, -⟩ := served.own h' ran
    obtain ⟨b, member', number', asked', -⟩ :=
      piped.began h'.rid (Stage.names_of_ended done)
    obtain rfl := piped.eq_of_rid member member' (number.trans number'.symm)
    obtain ⟨rfl, -⟩ : pid = a.pid ∧ data = a.job.pack := by
      simpa using asked.symm.trans asked'
    have same := sane.coherent.exclusive.single (user h.pid) h'.rid rid
      (sane.coherent.held_of_ended done named open_ _ (by simp [player, own]))
      (handles.covers sane)
    rw [same, handles.stage] at done
    cases done
  obtain ⟨returned, value⟩ := served.value h.pid h' last past
  exact ⟨returned, sane.same_of_value value handles.value⟩

/-- A request is handled. -/
theorem handled (served : f.Served workers lib request) (piped : f.Piped workers)
    (sane : f.game.Sane) (single : f.game.net.mgr.Single) {g' : Game Addr Nat Wid N} {rid : Nat}
    (taken : Game.Step lib request f.game (.handle rid) g')
    {q : Query Bytes Addr (Scalar N) (Scalar N)} {h : Handling Nat N} {addr : Addr}
    (handles : Game.Handles lib request f.game g' rid q h addr) :
    { f with
      game := g'
      ran := f.ran ++ [h]
      responses := push f.responses (f.game.net.worker rid)
        (rid, h.response lib request) }.Served workers lib request := by
  obtain ⟨a, asked, number, data, worker⟩ :=
    piped.began rid (by rw [handles.stage]; simp [Stage.names])
  obtain ⟨player, pack⟩ : h.pid = a.pid ∧ h.data = a.job.pack := by
    simpa using handles.calling.asked.symm.trans data
  have grown : ∀ pid, ((f.ran ++ [h]).filter fun h => h.pid = pid) =
      f.ranFor pid ++ if h.pid = pid then [h] else [] := by
    intro pid
    rw [List.filter_append, ranFor]
    by_cases here : h.pid = pid <;> simp [here]
  have order := sane.requests_kept taken (by simp)
  refine ⟨fun h' member => ?_, fun other past => ?_, fun h' member => ?_, fun pid => ?_,
    fun pid => ?_, fun pid h' last past => ?_, fun wid => ?_, served.sent⟩
  · rcases List.mem_append.mp member with old | new
    · have done := served.ended h' old
      exact (Game.goes_on taken (Stage.names_of_ended done)).1.ended done
    · rw [List.mem_singleton.mp new, handles.own]
      rcases handles.ends with ⟨-, -, ⟨q', stage⟩, -⟩ | ⟨-, -, stage, -⟩ <;>
        exact (congrArg Stage.ended stage).trans rfl
  · rw [List.map_append, List.mem_append]
    by_cases here : other = rid
    · exact .inr (by simp [here, handles.own])
    · exact .inl (served.ran other ((Game.past_iff taken (by simpa using Ne.symm here)).mp past))
  · rcases List.mem_append.mp member with old | new
    · exact served.own h' old
    · rw [List.mem_singleton.mp new]
      exact ⟨a, asked, number.trans handles.own.symm, player.symm, pack.symm⟩
  · rw [ranFor, grown, order]
    by_cases here : h.pid = pid
    · subst here
      simpa [handles.own] using served.next_in_line piped sane single handles
    · simpa [here] using served.order pid
  · rw [ranFor, grown]
    by_cases here : h.pid = pid
    · subst here
      rw [if_pos rfl]
      refine (served.sees h.pid).append (List.isChain_singleton h) fun h' last h'' first => ?_
      obtain rfl : h = h'' := by simpa using first
      exact served.leads piped sane handles h' last
    · rw [if_neg here, List.append_nil]
      exact served.sees pid
  · rw [ranFor, grown] at last
    by_cases here : h.pid = pid
    · subst here
      obtain rfl : h = h' := by simpa using last
      rw [handles.own] at past
      exact handles.left (sane.step taken) past
    · rw [if_neg here, List.append_nil] at last
      have ran := (List.mem_filter.mp (List.mem_of_getLast? last)).1
      have apart : h'.rid ≠ rid := by
        intro same
        have done := served.ended h' ran
        rw [same, handles.stage] at done
        cases done
      obtain ⟨returned, value⟩ := served.value pid h' last
        ((Game.past_iff taken (by simpa using Ne.symm apart)).mp past)
      exact ⟨returned, value.keep (Game.born_kept taken) (handles.other (Ne.symm here))⟩
  · rw [List.filter_append, List.map_append, served.responses wid, worker, ← player]
    by_cases here : workers.worker h.pid = wid
    · simp [push, here, handles.own]
    · simp [push, here, Ne.symm here]

end Served

/-- What holds in every state of a run. -/
structure Kept (workers : Workers Wid) (lib : Library N) (request : Scalar N → Option (Handler N))
    (f : Flow Fd Peer Addr Wid N) : Prop where
  sane : f.game.Sane
  single : f.game.net.mgr.Single
  piped : f.Piped workers
  served : f.Served workers lib request

variable {workers : Workers Wid} {ports : Gate.Ports Fd} {lib : Library N}
  {request : Scalar N → Option (Handler N)} {f f' : Flow Fd Peer Addr Wid N}

theorem Kept.start [Inhabited Wid] : (init : Flow Fd Peer Addr Wid N).Kept workers lib request :=
  ⟨.init, .init, .start, .start⟩

theorem Kept.step (kept : f.Kept workers lib request) {event : FlowEvent Fd Peer Addr Wid N}
    (taken : Step workers ports lib request f event f') : f'.Kept workers lib request := by
  obtain ⟨sane, single, piped, served⟩ := kept
  obtain ⟨enabled, rfl⟩ := taken
  cases event with
  | gate label =>
      obtain ⟨apart, enabled, -⟩ := enabled
      exact ⟨sane, single, piped.gate apart enabled, served.gate apart⟩
  | start =>
      have enabled : f.gate.server.Enabled ports .start := enabled
      obtain ⟨job, rest, forked⟩ := List.exists_cons_of_ne_nil enabled.2
      have framed : job ∈ f.gate.frames := by
        rw [piped.frames, forked]
        exact List.mem_append_right _ List.mem_cons_self
      obtain ⟨-, pid, named, -⟩ := piped.owned.frames job framed
      simp only [next, forked, named]
      exact ⟨sane, single, piped.called (a := ⟨f.asks.length, pid, job⟩) forked rfl named enabled,
        served.called piped forked _⟩
  | login rid pid t =>
      have taken : Game.Step lib request f.game (.login rid pid t) _ := ⟨enabled.2, rfl⟩
      exact ⟨sane.step taken, sane.single single taken,
        piped.game sane taken (by simp) (by simp) f.responses f.ran,
        served.game sane taken (by simp) f.requests f.locks⟩
  | request wid =>
      obtain ⟨a, rest, waits, enabled⟩ := enabled
      have taken : Game.Step lib request f.game (.request a.rid wid a.pid a.job.pack) _ :=
        ⟨enabled, rfl⟩
      simp only [next, waits]
      exact ⟨sane.step taken, sane.single single taken, piped.requested sane waits taken,
        served.game sane taken (by simp) _ _⟩
  | lock wid =>
      obtain ⟨a, rest, waits, enabled⟩ := enabled
      have taken : Game.Step lib request f.game (.other (.lock a.rid [user a.pid])) _ :=
        ⟨enabled, rfl⟩
      simp only [next, waits]
      exact ⟨sane.step taken, sane.single single taken, piped.locked sane waits taken,
        served.game sane taken (by simp) f.requests _⟩
  | handle rid =>
      have taken : Game.Step lib request f.game (.handle rid) _ := ⟨enabled, rfl⟩
      obtain ⟨q, h, addr, handles⟩ := sane.handles taken
      simp only [next, handles.call]
      exact ⟨sane.step taken, sane.single single taken,
        piped.game sane taken (by simp) (by simp) _ _,
        served.handled piped sane single taken handles⟩
  | answer wid =>
      obtain ⟨e, rest, a, waits, asked, enabled⟩ := enabled
      simp only [next, waits, asked]
      exact ⟨sane, single, piped.answered enabled _ _, served.answered waits asked⟩
  | other label =>
      obtain ⟨noLock, enabled⟩ := enabled
      have taken : Game.Step lib request f.game (.other label) _ := ⟨enabled, rfl⟩
      exact ⟨sane.step taken, sane.single single taken,
        piped.game sane taken (by simp) (by simpa using noLock) f.responses f.ran,
        served.game sane taken (by simp) f.requests f.locks⟩

/-! ## The requests of one connection -/

/-- The numbers of the frames of a connection, in the order in which they have arrived. -/
def framesOf (f : Flow Fd Peer Addr Wid N) (n : Nat) : List Nat :=
  (List.range f.gate.frames.length).filter fun i =>
    f.gate.frames[i]?.map Gate.Job.accept = some n

/-- The handler calls for the frames of a connection, the first one first. -/
def ranOf (f : Flow Fd Peer Addr Wid N) (n : Nat) : List (Handling Nat N) :=
  f.ran.filter fun h => f.gate.frames[h.rid]?.map Gate.Job.accept = some n

/-- What has been passed to `network.send` for the frames of a connection. -/
def sentOf (f : Flow Fd Peer Addr Wid N) (n : Nat) : List (Gate.Sent Fd) :=
  f.gate.server.sent.filter fun m => m.asked = some n

/-- The requests of a connection are served one by one. -/
structure Ordered (lib : Library N) (request : Scalar N → Option (Handler N))
    (f : Flow Fd Peer Addr Wid N) (n : Nat) : Prop where
  /-- a handler is called for the frame with its number -/
  own : ∀ h ∈ f.ranOf n, ∃ job, f.gate.frames[h.rid]? = some job ∧ job.accept = n ∧
    job.pid = some h.pid ∧ job.pack = h.data
  /-- the handlers are called in the order in which the frames have arrived -/
  order : (f.ranOf n).map Handling.rid <+: f.framesOf n
  /-- one at a time has the player -/
  alone : ∀ i ∈ f.framesOf n, ∀ j ∈ f.framesOf n, ∀ q q', f.game.net.stage i = .running q →
    f.game.net.stage j = .running q' → i = j
  /-- each gets what the one before has left -/
  sees : (f.ranOf n).IsChain (Game.Leads lib request)
  /-- the responses go to the descriptor of the connection -/
  place : ∀ m ∈ f.sentOf n, f.gate.place n = some m.fd
  /-- and in that order -/
  responses : (f.sentOf n).map Gate.Sent.message <+:
    (f.ranOf n).filterMap (Handling.response lib request)

/-- The frames that have been passed to a worker are those of one player. -/
theorem Kept.player (kept : f.Kept workers lib request) {a : Ask Fd} (asked : a ∈ f.asks)
    {b : Ask Fd} (also : b ∈ f.asks) : b.job.accept = a.job.accept ↔ b.pid = a.pid := by
  have piped := kept.piped
  have first := piped.job_mem asked
  have second := piped.job_mem also
  refine ⟨fun same => ?_, fun same => ?_⟩
  · have pids := piped.owned.steady second first same
    rw [piped.named b also, piped.named a asked] at pids
    exact Option.some.inj pids
  · exact piped.owned.own second first (by rw [piped.named b also, piped.named a asked, same])

/-- A call is for a frame of the connection `n`. -/
theorem Kept.accept_at (kept : f.Kept workers lib request) {a : Ask Fd} (asked : a ∈ f.asks)
    (n : Nat) : f.gate.frames[a.rid]?.map Gate.Job.accept = some n ↔ a.job.accept = n := by
  rw [kept.piped.frame_at asked, Option.map_some, Option.some.injEq]

/-- The handler calls of a connection are those of its player. -/
theorem Kept.ranOf_eq (kept : f.Kept workers lib request) {a : Ask Fd} (asked : a ∈ f.asks) :
    f.ranOf a.job.accept = f.ranFor a.pid := by
  refine List.filter_congr fun h ran => ?_
  obtain ⟨b, also, number, player, -⟩ := kept.served.own h ran
  rw [← number, ← player, decide_eq_decide, kept.accept_at also, kept.player asked also]

/-- Where no frame of a connection has been passed to a worker, none has been handled. -/
theorem Kept.ranOf_nil (kept : f.Kept workers lib request) {n : Nat}
    (absent : ∀ a ∈ f.asks, a.job.accept ≠ n) : f.ranOf n = [] := by
  refine List.filter_eq_nil_iff.mpr fun h ran here => ?_
  obtain ⟨a, asked, number, -⟩ := kept.served.own h ran
  rw [← number] at here
  exact absent a asked ((kept.accept_at asked n).mp (of_decide_eq_true here))

/-- The calls for a player are those for the first frames of its connection. -/
theorem Kept.asked_first (kept : f.Kept workers lib request) {a : Ask Fd} (asked : a ∈ f.asks) :
    (asksOf a.pid f.asks).map Ask.rid <+: f.framesOf a.job.accept := by
  have started : List.range f.asks.length <+: List.range f.gate.frames.length := by
    rw [← Nat.min_eq_left (show f.asks.length ≤ f.gate.frames.length by simp [kept.piped.frames]),
      ← List.take_range]
    exact List.take_prefix _ _
  have same : (asksOf a.pid f.asks).map Ask.rid = (List.range f.asks.length).filter
      fun i => f.gate.frames[i]?.map Gate.Job.accept = some a.job.accept := by
    rw [← kept.piped.numbered, List.filter_map]
    refine congrArg (List.map Ask.rid) (List.filter_congr fun b also => ?_)
    rw [Function.comp_apply, decide_eq_decide, kept.accept_at also, kept.player asked also]
  rw [same]
  exact started.filter _

theorem Kept.order (kept : f.Kept workers lib request) {a : Ask Fd} (asked : a ∈ f.asks) :
    (f.ranFor a.pid).map Handling.rid <+: f.framesOf a.job.accept := by
  obtain ⟨taken, whole, rids⟩ := kept.piped.line a.pid
  have granted := kept.served.order a.pid
  rw [← rids] at granted
  refine granted.trans (List.IsPrefix.trans ?_ (kept.asked_first asked))
  rw [whole]
  exact (List.prefix_append _ _).map _

/-- The worker of the player has sent the responses that the gate has got. -/
theorem Kept.answered_first (kept : f.Kept workers lib request) {a : Ask Fd}
    (asked : a ∈ f.asks) :
    (f.answered.filter fun e => f.gate.frames[e.2.1]?.map Gate.Job.accept =
        some a.job.accept).map Prod.snd <+:
      (f.ranFor a.pid).map fun h => (h.rid, h.response lib request) := by
  have own : (f.answered.filter fun e => f.gate.frames[e.2.1]?.map Gate.Job.accept =
      some a.job.accept) = (f.answered.filter fun e => e.1 = workers.worker a.pid).filter fun e =>
        f.gate.frames[e.2.1]?.map Gate.Job.accept = some a.job.accept := by
    rw [List.filter_filter]
    refine List.filter_congr fun e got => ?_
    by_cases here : f.gate.frames[e.2.1]?.map Gate.Job.accept = some a.job.accept
    · obtain ⟨h, ran, number, home⟩ := kept.served.ask_of_answered got
      obtain ⟨b, also, number', player, -⟩ := kept.served.own h ran
      rw [← number, ← number', kept.accept_at also, kept.player asked also] at here
      rw [← home, ← player, here]
      simp
    · simp [here]
  have part : (f.ranFor a.pid).map (fun h => (h.rid, h.response lib request)) =
      ((f.ran.filter fun h => workers.worker h.pid = workers.worker a.pid).map
        fun h => (h.rid, h.response lib request)).filter fun e =>
          f.gate.frames[e.1]?.map Gate.Job.accept = some a.job.accept := by
    rw [List.filter_map, List.filter_filter, ranFor]
    refine congrArg (List.map _) (List.filter_congr fun h ran => ?_)
    obtain ⟨b, also, number, player, -⟩ := kept.served.own h ran
    rw [Function.comp_apply, ← number, ← player]
    by_cases same : b.pid = a.pid
    · simp [(kept.accept_at also _).mpr ((kept.player asked also).mpr same), same]
    · have other : ¬ f.gate.frames[b.rid]?.map Gate.Job.accept = some a.job.accept := fun here =>
        same ((kept.player asked also).mp ((kept.accept_at also _).mp here))
      simp [other, same]
  rw [own, part, kept.served.responses]
  have first := (List.prefix_append ((f.answered.filter fun e =>
    e.1 = workers.worker a.pid).map Prod.snd) (f.responses (workers.worker a.pid))).filter
      fun e => f.gate.frames[e.1]?.map Gate.Job.accept = some a.job.accept
  rwa [List.filter_map] at first

/-- What has been passed on for a connection are the responses to its frames. -/
theorem messages_eq {asks : List (Ask Fd)} {frames : List (Gate.Job Fd)}
    (n : Nat) (answered : List (Wid × Nat × Option Bytes))
    (known : ∀ e ∈ answered, ∃ a, asks[e.2.1]? = some a ∧ frames[e.2.1]? = some a.job) :
    ((answered.filterMap fun e => passed asks e.2).filter fun m => m.2.2 = some n).map
        (fun m => m.2.1) =
      ((answered.filter fun e => frames[e.2.1]?.map Gate.Job.accept = some n).map
        Prod.snd).filterMap Prod.snd := by
  induction answered with
  | nil => rfl
  | cons e rest ih =>
      have later := ih fun e member => known e (List.mem_cons_of_mem _ member)
      obtain ⟨a, asked, framed⟩ := known e List.mem_cons_self
      have head : passed asks e.2 = e.2.2.map fun m => (a.job.fd, m, some a.job.accept) := by
        rw [passed, asked, Option.bind_some]
      rw [List.filterMap_cons, head]
      by_cases own : a.job.accept = n
      · rw [List.filter_cons_of_pos (by simp [framed, own])]
        cases resp : e.2.2 <;> simp [resp, own, later]
      · rw [List.filter_cons_of_neg (by simp [framed, own])]
        cases resp : e.2.2 <;> simp [own, later]

theorem Kept.known (kept : f.Kept workers lib request) :
    ∀ e ∈ f.answered, ∃ a, f.asks[e.2.1]? = some a ∧ f.gate.frames[e.2.1]? = some a.job := by
  intro e got
  obtain ⟨h, ran, number, -⟩ := kept.served.ask_of_answered got
  obtain ⟨a, asked, number', -⟩ := kept.served.own h ran
  rw [← number, ← number']
  exact ⟨a, kept.piped.at_rid asked, kept.piped.frame_at asked⟩

theorem Kept.messages (kept : f.Kept workers lib request) (n : Nat) :
    (f.sentOf n).map Gate.Sent.message =
      ((f.answered.filter fun e => f.gate.frames[e.2.1]?.map Gate.Job.accept = some n).map
        Prod.snd).filterMap Prod.snd := by
  rw [← messages_eq n f.answered kept.known, ← kept.served.sent, List.filter_map, List.map_map,
    List.filter_filter, sentOf]
  refine congrArg (List.map Gate.Sent.message) (List.filter_congr fun m _ => ?_)
  by_cases own : m.asked = some n <;> simp [own]

/-- A response is sent to the descriptor of the frame. -/
theorem Kept.place (kept : f.Kept workers lib request) {n : Nat} {m : Gate.Sent Fd}
    (sent : m ∈ f.sentOf n) : f.gate.place n = some m.fd := by
  obtain ⟨inSent, asked⟩ := List.mem_filter.mp sent
  have asked : m.asked = some n := of_decide_eq_true asked
  have listed : (m.fd, m.message, m.asked) ∈ f.answered.filterMap fun e => passed f.asks e.2 := by
    rw [← kept.served.sent]
    exact List.mem_map_of_mem (List.mem_filter.mpr ⟨inSent, by simp [asked]⟩)
  obtain ⟨e, got, message⟩ := List.mem_filterMap.mp listed
  obtain ⟨a, at', framed⟩ := kept.known e got
  rw [passed, at', Option.bind_some, asked] at message
  obtain ⟨text, -, same⟩ := Option.map_eq_some_iff.mp message
  obtain ⟨fd, -, accept⟩ : a.job.fd = m.fd ∧ text = m.message ∧ a.job.accept = n := by
    simpa using same
  rw [← fd, ← accept]
  exact (kept.piped.owned.frames a.job (List.mem_of_getElem? framed)).1

/-- A query that runs for a frame has the state of the frame's player locked. -/
theorem Kept.running (kept : f.Kept workers lib request) {i : Nat}
    {q : Query Bytes Addr (Scalar N) (Scalar N)} (stage : f.game.net.stage i = .running q) :
    ∃ a ∈ f.asks, a.rid = i ∧ f.game.net.mgr.Covers i (user a.pid) := by
  obtain ⟨a, asked, number, data, -⟩ := kept.piped.began i (by rw [stage]; simp [Stage.names])
  obtain ⟨pid, pack, player, names, -⟩ := kept.sane.asks i q.names (by rw [stage]; rfl)
  obtain ⟨rfl, -⟩ : pid = a.pid ∧ pack = a.job.pack := by simpa using player.symm.trans data
  have held := (kept.sane.coherent.at_running stage).1.2
  exact ⟨a, asked, number, Net.covers_of_held held _ (by simp [names])⟩

theorem Kept.alone (kept : f.Kept workers lib request) {n i j : Nat}
    (first : i ∈ f.framesOf n) (second : j ∈ f.framesOf n)
    {q q' : Query Bytes Addr (Scalar N) (Scalar N)} (left : f.game.net.stage i = .running q)
    (right : f.game.net.stage j = .running q') : i = j := by
  obtain ⟨a, asked, rfl, covers⟩ := kept.running left
  obtain ⟨b, also, rfl, covers'⟩ := kept.running right
  have accept := (kept.accept_at asked n).mp (of_decide_eq_true (List.mem_filter.mp first).2)
  have accept' := (kept.accept_at also n).mp (of_decide_eq_true (List.mem_filter.mp second).2)
  rw [(kept.player asked also).mp (accept'.trans accept.symm)] at covers'
  exact kept.sane.coherent.exclusive.single _ _ _ covers covers'

theorem Kept.ordered (kept : f.Kept workers lib request) (n : Nat) :
    f.Ordered lib request n := by
  have own : ∀ h ∈ f.ranOf n, ∃ job, f.gate.frames[h.rid]? = some job ∧ job.accept = n ∧
      job.pid = some h.pid ∧ job.pack = h.data := by
    intro h member
    obtain ⟨ran, here⟩ := List.mem_filter.mp member
    obtain ⟨a, asked, number, player, pack⟩ := kept.served.own h ran
    rw [← number] at here
    exact ⟨a.job, number ▸ kept.piped.frame_at asked,
      (kept.accept_at asked n).mp (of_decide_eq_true here), player ▸ kept.piped.named a asked, pack⟩
  have alone : ∀ i ∈ f.framesOf n, ∀ j ∈ f.framesOf n, ∀ q q', f.game.net.stage i = .running q →
      f.game.net.stage j = .running q' → i = j :=
    fun i first j second q q' left right => kept.alone first second left right
  by_cases some_asked : ∃ a ∈ f.asks, a.job.accept = n
  · obtain ⟨a, asked, rfl⟩ := some_asked
    have same := kept.ranOf_eq asked
    refine ⟨own, same ▸ kept.order asked, alone, same ▸ kept.served.sees a.pid,
      fun m sent => kept.place sent, ?_⟩
    rw [kept.messages, same]
    have responses : ((f.ranFor a.pid).map fun h => (h.rid, h.response lib request)).filterMap
        Prod.snd = (f.ranFor a.pid).filterMap (Handling.response lib request) :=
      List.filterMap_map
    rw [← responses]
    exact (kept.answered_first asked).filterMap Prod.snd
  · have absent : ∀ a ∈ f.asks, a.job.accept ≠ n := fun a asked same => some_asked ⟨a, asked, same⟩
    have nothing := kept.ranOf_nil absent
    have silent : f.sentOf n = [] := by
      refine List.map_eq_nil_iff.mp ((kept.messages n).trans ?_)
      have none_got : (f.answered.filter fun e =>
          f.gate.frames[e.2.1]?.map Gate.Job.accept = some n) = [] := by
        refine List.filter_eq_nil_iff.mpr fun e got here => ?_
        obtain ⟨a, at', framed⟩ := kept.known e got
        refine absent a (List.mem_of_getElem? at') ?_
        simpa [framed] using here
      rw [none_got]
      rfl
    exact ⟨own, by rw [nothing]; exact List.nil_prefix, alone,
      by rw [nothing]; exact List.isChain_nil, by simp [silent], by simp [silent]⟩

/--
In every state of every run, and for every connection: the handlers are called for
its frames one at a time and in the order in which the frames have arrived, each on
the player that the one before has left, and the responses are passed to
`network.send` in that order.
-/
theorem ordered_of_run [Inhabited Wid]
    {steps : List (Flow Fd Peer Addr Wid N × FlowEvent Fd Peer Addr Wid N)}
    {f : Flow Fd Peer Addr Wid N} (run : Lib.Run (Step workers ports lib request) init steps f) :
    ∀ v ∈ Lib.visited steps f, ∀ n, v.Ordered lib request n := by
  have kept := run.invariant_visited (fun _ _ => True) (fun v => v.Kept workers lib request)
    .start (fun _ _ _ kept _ taken => kept.step taken) (fun _ _ => trivial)
  exact fun v member n => (kept v member).ordered n

/-! ## Two frames -/

/-- Two frames that ask to play for 1000. -/
def twoBets : Bytes :=
  [0, 28] ++ Game.betText ++ [0, 28] ++ Game.betText

/-- Two workers. -/
def twoWorkers : Workers Nat :=
  ⟨[0, 1], by decide⟩

/-- The player `a` logs in and sends two frames; the first is answered, the second waits. -/
def betsRun : List (FlowEvent Nat Nat Nat Nat Int) :=
  [.gate (.wait (some [4])), .gate (.accepted 7 0), .gate .slept, .gate (.wait (some [7])),
    .gate (.received Gate.authToken), .gate .slept, .gate (.wait (some [7])),
    .gate (.received [97, 10]), .login 9 [97] (Game.document 50000), .other (.spawned 9 40),
    .gate (.loggedIn ⟨.document, true⟩), .gate .slept, .gate (.wait (some [7])),
    .gate (.received twoBets), .start, .start, .request 1, .request 1, .lock 1, .lock 1,
    .other (.granted 0 [some 40] 1), .other (.answer 0), .other (.receive 0), .handle 0,
    .answer 1]

theorem betsRun_legal :
    Lib.Legal (Enabled ⟨3, 4⟩ Game.casino (WindLtask.request Game.casino))
      (next twoWorkers Game.casino (WindLtask.request Game.casino))
      (init : Flow Nat Nat Nat Nat Int) betsRun := by
  have gate : ∀ {f : Flow Nat Nat Nat Nat Int} {label : Gate.Label Nat Nat},
      (∀ answers, label ≠ .loggedIn answers) → label.apart →
      f.gate.server.Enabled ⟨3, 4⟩ label →
      f.Enabled ⟨3, 4⟩ Game.casino (WindLtask.request Game.casino) (.gate label) :=
    fun other apart enabled =>
      ⟨apart, enabled, fun answers _ _ _ same => absurd same (other answers)⟩
  have start : ∀ {f : Flow Nat Nat Nat Nat Int}, f.gate.server.Enabled ⟨3, 4⟩ .start →
      f.Enabled ⟨3, 4⟩ Game.casino (WindLtask.request Game.casino) .start := id
  -- the connection is accepted and sends the token and the player id
  refine ⟨gate (by simp) rfl (by decide), gate (by simp) rfl (by decide),
    gate (by simp) rfl (by decide), gate (by simp) rfl (by decide),
    gate (by simp) rfl (by decide), gate (by simp) rfl (by decide),
    gate (by simp) rfl (by decide), gate (by simp) rfl (by decide), ?_⟩
  -- the login makes the state and returns
  refine ⟨⟨⟨7, [], rfl⟩, ⟨rfl, fun rid asked => Option.some_ne_none _ asked.symm⟩, _, rfl, rfl⟩,
    ⟨by simp, rfl, _, rfl, rfl, _, _, rfl, rfl⟩, ⟨rfl, rfl, fun answers fd pid fds _ waits _ => ?_⟩,
    ?_⟩
  · obtain ⟨-, rfl, -⟩ :=
      Gate.Loop.login.inj (waits : Gate.Loop.login 7 [97] [] = .login fd pid fds)
    rfl
  -- two frames arrive, and the manager gets both requests
  refine ⟨gate (by simp) rfl (by decide +kernel), gate (by simp) rfl (by decide +kernel),
    gate (by simp) rfl (by decide +kernel), start (by decide +kernel), start (by decide +kernel),
    ⟨_, _, rfl, rfl, _, rfl, trivial⟩, ⟨_, _, rfl, rfl, _, rfl, trivial⟩,
    ⟨_, _, rfl, rfl, _, rfl, rfl⟩, ⟨_, _, rfl, rfl, _, rfl, rfl⟩, ?_⟩
  -- the first is granted, handled and answered
  exact ⟨⟨by simp, rfl, _, rfl, Net.isBorder_one 40, _, List.mem_singleton.mpr rfl, rfl, rfl⟩,
    ⟨by simp, rfl, _, rfl, rfl⟩, ⟨by simp, rfl, _, rfl, trivial⟩,
    ⟨trivial, _, rfl, ⟨0, by decide +kernel, by decide +kernel⟩, rfl⟩,
    ⟨_, _, _, rfl, rfl, rfl, by decide +kernel⟩, trivial⟩

theorem ordered_of_betsRun :
    ∃ (steps : List (Flow Nat Nat Nat Nat Int × FlowEvent Nat Nat Nat Nat Int))
      (f : Flow Nat Nat Nat Nat Int),
      Lib.Run (Step twoWorkers ⟨3, 4⟩ Game.casino (WindLtask.request Game.casino)) init steps f ∧
        f.framesOf 0 = [0, 1] ∧ (f.ranOf 0).map Handling.rid = [0] ∧ (f.sentOf 0).length = 1 ∧
        ∀ v ∈ Lib.visited steps f, ∀ n, v.Ordered Game.casino (WindLtask.request Game.casino) n := by
  have run := Lib.Run.of_legal betsRun_legal
  exact ⟨_, _, run, by decide +kernel, by decide +kernel, by decide +kernel, ordered_of_run run⟩

end Flow

end WindLtask.System
