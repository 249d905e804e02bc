import Mathlib.Data.List.Chain
import WindLtask.Gate.Arrivals
import WindLtask.Manager.Line
import WindLtask.System.Players

/-!
# From the gate to the workers and back

The network service together with all other services.  A message waits in the
queue between its sender and its receiver and is taken from there first come, first
served; that is how the calls of `player_request`, their lock messages and their
responses travel.  All other messages may overtake each other.

A call of `player_request` has the number of its frame.
-/

set_option linter.unusedSectionVars false

namespace WindLtask.System

open Manager Process

variable {Fd Peer Addr Wid N : Type} [DecidableEq Fd] [DecidableEq Addr] [DecidableEq Wid]
  [DecidableEq N]

/-- `workers`; the bootstrap spawns them before the network service starts. -/
structure Workers (Wid : Type) where
  list : List Wid
  nonempty : list ≠ []

/-- `worker(pid)` -/
def Workers.worker (workers : Workers Wid) (pid : Bytes) : Wid :=
  let n := pid.foldl (fun n byte => n + byte.toNat) 0
  workers.list.get
    ⟨n % workers.list.length, Nat.mod_lt n (List.length_pos_iff.mpr workers.nonempty)⟩

/-- A call of `player_request`. -/
structure Ask (Fd : Type) where
  rid : Nat
  pid : Bytes
  /-- the coroutine that waits for the response -/
  job : Gate.Job Fd

/-- The state of all services and of the messages between gate, workers and manager. -/
structure Flow (Fd Peer Addr Wid N : Type) where
  gate : Gate.Arrivals Fd Peer
  game : Game Addr Nat Wid N
  /-- the calls of `player_request` so far -/
  asks : List (Ask Fd)
  /-- the calls on their way to a worker -/
  requests : Wid → List (Ask Fd)
  /-- the lock messages on their way from a worker -/
  locks : Wid → List (Ask Fd)
  /-- the responses on their way from a worker -/
  responses : Wid → List (Nat × Option Bytes)
  /-- the calls of handlers so far -/
  ran : List (Handling Nat N)
  /-- the responses that the gate has got so far, and from which worker -/
  answered : List (Wid × Nat × Option Bytes)

/-- What happens next. -/
inductive FlowEvent (Fd Peer Addr Wid N : Type) where
  /-- the network service goes on, but for its requests -/
  | gate (label : Gate.Label Fd Peer)
  /-- the next forked coroutine calls its worker -/
  | start
  /-- `player_login` asks for the state of its player -/
  | login (rid : Nat) (pid : Bytes) (t : LuaTable N)
  /-- a worker gets a call of `player_request` -/
  | request (wid : Wid)
  /-- the manager gets a lock message of a worker -/
  | lock (wid : Wid)
  /-- `starre.query` has returned; the handler and the rest of the request run -/
  | handle (rid : Nat)
  /-- the gate gets a response of a worker -/
  | answer (wid : Wid)
  | other (label : Label Bytes Addr Nat Wid (Scalar N) (Scalar N))

/-- Put a message at the end of a queue. -/
def push {α : Type} (queues : Wid → List α) (wid : Wid) (message : α) : Wid → List α :=
  Function.update queues wid (queues wid ++ [message])

namespace Flow

/-- The start: the services run and nobody has connected. -/
def init [Inhabited Wid] : Flow Fd Peer Addr Wid N where
  gate := .init
  game := .init
  asks := []
  requests := fun _ => []
  locks := fun _ => []
  responses := fun _ => []
  ran := []
  answered := []

section Steps

variable (workers : Workers Wid) (ports : Gate.Ports Fd) (lib : Library N)
  (request : Scalar N → Option (Handler N))

/-- The effect of an event. -/
def next (f : Flow Fd Peer Addr Wid N) : FlowEvent Fd Peer Addr Wid N → Flow Fd Peer Addr Wid N
  | .gate label => { f with gate := f.gate.next label }
  | .start =>
      match f.gate.server.forked with
      | job :: _ =>
          match job.pid with
          | some pid =>
              { f with
                gate := f.gate.next .start
                asks := f.asks ++ [⟨f.asks.length, pid, job⟩]
                requests := push f.requests (workers.worker pid) ⟨f.asks.length, pid, job⟩ }
          -- `#pid` raises
          | none => { f with gate := f.gate.next .start }
      | [] => f
  | .login rid pid t => { f with game := f.game.next lib request (.login rid pid t) }
  | .request wid =>
      match f.requests wid with
      | a :: rest =>
          { f with
            game := f.game.next lib request (.request a.rid wid a.pid a.job.pack)
            requests := Function.update f.requests wid rest
            locks := push f.locks wid a }
      | [] => f
  | .lock wid =>
      match f.locks wid with
      | a :: rest =>
          { f with
            game := f.game.next lib request (.other (.lock a.rid [user a.pid]))
            locks := Function.update f.locks wid rest }
      | [] => f
  | .handle rid =>
      match f.game.call rid with
      | some h =>
          { f with
            game := f.game.next lib request (.handle rid)
            ran := f.ran ++ [h]
            responses := push f.responses (f.game.net.worker rid)
              (rid, h.response lib request) }
      | none => f
  | .answer wid =>
      match f.responses wid with
      | e :: rest =>
          match f.asks[e.1]? with
          | some a =>
              { f with
                gate := f.gate.next (.answer a.job e.2)
                responses := Function.update f.responses wid rest
                answered := f.answered ++ [(wid, e)] }
          | none => f
      | [] => f
  | .other label => { f with game := f.game.next lib request (.other label) }

/-- What can happen. -/
def Enabled (f : Flow Fd Peer Addr Wid N) : FlowEvent Fd Peer Addr Wid N → Prop
  | .gate label => label.apart ∧ f.gate.server.Enabled ports label ∧
      -- `player_login` returns when `starre.new` has returned
      ∀ answers fd pid fds, label = .loggedIn answers → f.gate.server.loop = .login fd pid fds →
        playerLogin f.gate.server.players pid answers →
        (f.game.net.mgr.proc.state (user pid)).isSome
  | .start => f.gate.server.Enabled ports .start
  | .login rid pid t => (∃ fd fds, f.gate.server.loop = .login fd pid fds) ∧
      f.game.Enabled lib request (.login rid pid t)
  | .request wid => ∃ a rest, f.requests wid = a :: rest ∧
      f.game.Enabled lib request (.request a.rid wid a.pid a.job.pack)
  | .lock wid => ∃ a rest, f.locks wid = a :: rest ∧
      f.game.Enabled lib request (.other (.lock a.rid [user a.pid]))
  | .handle rid => f.game.Enabled lib request (.handle rid)
  | .answer wid => ∃ e rest a, f.responses wid = e :: rest ∧ f.asks[e.1]? = some a ∧
      f.gate.server.Enabled ports (.answer a.job e.2)
  | .other label => (∀ rid names, label ≠ .lock rid names) ∧
      f.game.Enabled lib request (.other label)

/-- One step of the services. -/
def Step (f : Flow Fd Peer Addr Wid N) (event : FlowEvent Fd Peer Addr Wid N)
    (f' : Flow Fd Peer Addr Wid N) : Prop :=
  f.Enabled ports lib request event ∧ f' = f.next workers lib request event

end Steps

end Flow

end WindLtask.System
