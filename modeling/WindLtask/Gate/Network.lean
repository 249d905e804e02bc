import WindLtask.Gate.Gate
import WindLtask.Lib.Transition

/-!
# The network service

The event loop of `service/network-tcp.lua` around the gate, with the coroutines
that the gate forks.  The loop stands in one place at a time and yields while a
player logs in and at the end of each batch of events, not in `epoll.wait`; the
forked coroutines run in between and wait for their workers.  The results of the
bindings are inputs: the kernel reports open descriptors, and accepts with any
number that is not in use.

The last fields are history: how many connections have been accepted, which of
them have been closed, and what has been passed to `network.send`.
-/

set_option linter.unusedSectionVars false

namespace WindLtask.Gate

/-- The descriptors that `S.start` opens. -/
structure Ports (Fd : Type) where
  efd : Fd
  listenfd : Fd

/-- Where the loop coroutine stands. -/
inductive Loop (Fd : Type) where
  /-- in `epoll.wait` -/
  | waiting
  /-- the events of the batch that are left, the first one next -/
  | handling (fds : List Fd)
  /-- `on_data` waits for `player_login` -/
  | login (fd : Fd) (pid : Bytes) (fds : List Fd)
  /-- an error has ended the coroutine -/
  | raised
  deriving DecidableEq

/-- The event that is handled next. -/
def Loop.event {Fd : Type} : Loop Fd → Option Fd
  | .handling (fd :: _) => some fd
  | _ => none

/-- The events that are left, the one that waits for its login excepted. -/
def Loop.left {Fd : Type} : Loop Fd → List Fd
  | .handling fds | .login _ _ fds => fds
  | .waiting | .raised => []

/-- The call of `player_login` is under way. -/
def Loop.loggingIn {Fd : Type} : Loop Fd → Bool
  | .login _ _ _ => true
  | _ => false

/-- The loop coroutine lets others run: it sleeps, calls a worker or is gone. -/
def Loop.yields {Fd : Type} : Loop Fd → Bool
  | .handling [] | .login _ _ _ | .raised => true
  | _ => false

/-- A coroutine that `on_data` has forked for one pack. -/
structure Job (Fd : Type) where
  fd : Fd
  pid : Option Bytes
  pack : Bytes
  /-- the connection that sent the pack -/
  accept : Nat
  deriving DecidableEq

/-- A call of `network.send`. -/
structure Sent (Fd : Type) where
  fd : Fd
  message : Bytes
  /-- the connection that is open on the descriptor at that moment -/
  reached : Option Nat
  /-- the connection whose request is answered -/
  asked : Option Nat
  deriving DecidableEq

/-- The state of the network service. -/
structure Server (Fd Addr : Type) where
  connection : Fd → Option (Conn Addr)
  /-- the open client sockets -/
  sockets : Fd → Option Nat
  loop : Loop Fd
  /-- the queue of forked coroutines -/
  forked : List (Job Fd)
  /-- the coroutines that wait for a worker -/
  calls : List (Job Fd)
  /--
  the player ids whose states exist; only `player_login` makes them, and nothing releases them
  -/
  players : List Bytes
  accepts : Nat
  closed : List Nat
  sent : List (Sent Fd)

/-- What happens next. -/
inductive Label (Fd Addr : Type) where
  /-- `epoll.wait` returns a table of events, or `nil` and an error -/
  | wait (events : Option (List Fd))
  | eread
  | accepted (fd : Fd) (addr : Addr)
  | acceptFailed
  | received (message : Bytes)
  /-- `recv` returns `nil`; `closed` when the peer has closed the connection -/
  | recvFailed (closed : Bool)
  /-- `player_login` ends -/
  | loggedIn (answers : Answers)
  /-- the batch is done and `ltask.sleep(0)` returns -/
  | slept
  /-- the next forked coroutine calls its worker -/
  | start
  /-- a worker answers, with `none` for `nil` or an error -/
  | answer (job : Job Fd) (resp : Option Bytes)

variable {Fd Addr : Type} [DecidableEq Fd]

namespace Server

/-- The service once `S.start` has forked the loop. -/
def init : Server Fd Addr where
  connection := fun _ => none
  sockets := fun _ => none
  loop := .waiting
  forked := []
  calls := []
  players := []
  accepts := 0
  closed := []
  sent := []

/-- `network.send(fd, message)` -/
def send (s : Server Fd Addr) (fd : Fd) (message : Bytes) (asked : Option Nat) :
    Server Fd Addr :=
  { s with sent := s.sent ++ [⟨fd, message, s.sockets fd, asked⟩] }

/-- `close(fd)` -/
def close (s : Server Fd Addr) (fd : Fd) : Server Fd Addr :=
  { s with
    sockets := Function.update s.sockets fd none
    closed := s.closed ++ (s.sockets fd).toList }

/-- The bytes of `Authenticated, Please Enter your id to login.` and a newline. -/
def authenticated : Bytes :=
  [65, 117, 116, 104, 101, 110, 116, 105, 99, 97, 116, 101, 100, 44, 32, 80, 108, 101, 97, 115,
    101, 32, 69, 110, 116, 101, 114, 32, 121, 111, 117, 114, 32, 105, 100, 32, 116, 111, 32, 108,
    111, 103, 105, 110, 46, 10]

/-- The bytes of `Login success!` and a newline. -/
def loginSuccess : Bytes :=
  [76, 111, 103, 105, 110, 32, 115, 117, 99, 99, 101, 115, 115, 33, 10]

/-- `gate.on_data(fd, message)` with the events that are left after it. -/
def onData (s : Server Fd Addr) (fd : Fd) (message : Bytes) (fds : List Fd) : Server Fd Addr :=
  match Gate.onData s.connection fd message with
  | none => { s with loop := .raised }
  | some (connection, reaction) =>
      let s := { s with connection := connection, loop := .handling fds }
      match reaction with
      | .welcome => s.send fd authenticated none
      | .shutdown => s.close fd
      | .login pid _ => { s with loop := .login fd pid fds }
      | .requests pid packs =>
          { s with forked := s.forked ++ packs.map fun pack =>
              ⟨fd, pid, pack, ((connection fd).map Conn.accept).getD 0⟩ }

/-- The effect of a label. -/
def next (s : Server Fd Addr) : Label Fd Addr → Server Fd Addr
  -- `pairs(nil)` raises
  | .wait none => { s with loop := .raised }
  | .wait (some fds) => { s with loop := .handling fds }
  | .eread | .acceptFailed =>
      match s.loop with
      | .handling (_ :: fds) => { s with loop := .handling fds }
      | _ => s
  | .accepted fd addr =>
      match s.loop with
      | .handling (_ :: fds) =>
          { s with
            connection := onAccept s.connection fd addr s.accepts
            sockets := Function.update s.sockets fd (some s.accepts)
            accepts := s.accepts + 1
            loop := .handling fds }
      | _ => s
  | .received message =>
      match s.loop with
      | .handling (fd :: fds) => s.onData fd message fds
      | _ => s
  | .recvFailed closed =>
      match s.loop with
      | .handling (fd :: fds) =>
          let s := { s with loop := .handling fds }
          if closed then s.close fd else s
      | _ => s
  | .loggedIn answers =>
      match s.loop with
      | .login fd pid fds =>
          if playerLogin s.players pid answers then
            { s.send fd loginSuccess none with
              players := pid :: s.players
              loop := .handling fds }
          else { s with loop := .raised }
      | _ => s
  | .slept => { s with loop := .waiting }
  | .start =>
      match s.forked with
      | job :: rest => { s with forked := rest, calls := s.calls ++ [job] }
      | [] => s
  | .answer job resp =>
      let s := { s with calls := s.calls.erase job }
      match resp with
      | some message => s.send job.fd message (some job.accept)
      | none => s

/-- What can happen. -/
def Enabled (ports : Ports Fd) (s : Server Fd Addr) : Label Fd Addr → Prop
  | .wait none => s.loop = .waiting
  | .wait (some fds) => s.loop = .waiting ∧ fds.Nodup ∧
      ∀ fd ∈ fds, fd = ports.efd ∨ fd = ports.listenfd ∨ (s.sockets fd).isSome
  | .eread => s.loop.event = some ports.efd
  | .accepted fd _ => s.loop.event = some ports.listenfd ∧ ports.listenfd ≠ ports.efd ∧
      fd ≠ ports.efd ∧ fd ≠ ports.listenfd ∧ s.sockets fd = none
  | .acceptFailed => s.loop.event = some ports.listenfd ∧ ports.listenfd ≠ ports.efd
  | .received message => message ≠ [] ∧ message.length ≤ 1024 ∧ ∃ fd ∈ s.loop.event,
      fd ≠ ports.efd ∧ fd ≠ ports.listenfd ∧ (s.sockets fd).isSome
  | .recvFailed closed => ∃ fd ∈ s.loop.event,
      fd ≠ ports.efd ∧ fd ≠ ports.listenfd ∧ (closed → (s.sockets fd).isSome)
  | .loggedIn _ => s.loop.loggingIn
  | .slept => s.loop = .handling []
  | .start => s.loop.yields ∧ s.forked ≠ []
  | .answer job _ => s.loop.yields ∧ job ∈ s.calls

instance (ports : Ports Fd) (s : Server Fd Addr) :
    (label : Label Fd Addr) → Decidable (s.Enabled ports label)
  | .wait none => inferInstanceAs (Decidable (s.loop = .waiting))
  | .wait (some fds) => inferInstanceAs (Decidable (s.loop = .waiting ∧ fds.Nodup ∧
      ∀ fd ∈ fds, fd = ports.efd ∨ fd = ports.listenfd ∨ (s.sockets fd).isSome))
  | .eread => inferInstanceAs (Decidable (s.loop.event = some ports.efd))
  | .accepted fd _ => inferInstanceAs (Decidable (s.loop.event = some ports.listenfd ∧
      ports.listenfd ≠ ports.efd ∧ fd ≠ ports.efd ∧ fd ≠ ports.listenfd ∧ s.sockets fd = none))
  | .acceptFailed => inferInstanceAs (Decidable (s.loop.event = some ports.listenfd ∧
      ports.listenfd ≠ ports.efd))
  | .received message => inferInstanceAs (Decidable (message ≠ [] ∧ message.length ≤ 1024 ∧
      ∃ fd ∈ s.loop.event, fd ≠ ports.efd ∧ fd ≠ ports.listenfd ∧ (s.sockets fd).isSome))
  | .recvFailed closed => inferInstanceAs (Decidable (∃ fd ∈ s.loop.event,
      fd ≠ ports.efd ∧ fd ≠ ports.listenfd ∧ (closed → (s.sockets fd).isSome)))
  | .loggedIn _ => inferInstanceAs (Decidable (s.loop.loggingIn = true))
  | .slept => inferInstanceAs (Decidable (s.loop = .handling []))
  | .start => inferInstanceAs (Decidable (s.loop.yields ∧ s.forked ≠ []))
  | .answer job _ => inferInstanceAs (Decidable (s.loop.yields ∧ job ∈ s.calls))

/-- One step of the network service. -/
def Step (ports : Ports Fd) (s : Server Fd Addr) (label : Label Fd Addr) (s' : Server Fd Addr) :
    Prop :=
  s.Enabled ports label ∧ s' = s.next label

end Server

theorem Loop.handling_of_event {loop : Loop Fd} {fd : Fd} (event : loop.event = some fd) :
    ∃ fds, loop = .handling (fd :: fds) := by
  cases loop with
  | handling fds =>
      cases fds with
      | nil => simp [Loop.event] at event
      | cons first fds =>
          have same : first = fd := by simpa [Loop.event] using event
          exact ⟨fds, by rw [same]⟩
  | waiting | login | raised => simp [Loop.event] at event

theorem Loop.login_of_loggingIn {loop : Loop Fd} (busy : loop.loggingIn) :
    ∃ fd pid fds, loop = .login fd pid fds := by
  cases loop with
  | login fd pid fds => exact ⟨fd, pid, fds, rfl⟩
  | waiting | handling | raised => simp [Loop.loggingIn] at busy

end WindLtask.Gate
