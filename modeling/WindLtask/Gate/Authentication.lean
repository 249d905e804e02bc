import WindLtask.Gate.Incarnations

/-!
# Requests of authenticated connections

The network service is run together with what each descriptor has seen since its
last accept, and with the calls that the gate makes to its workers.  `ltask` runs
the coroutines that a message has forked before it takes the next message; that
is what keeps a forked request on the connection that sent it.
-/

set_option linter.unusedSectionVars false

namespace WindLtask.Gate

variable {Fd Addr : Type} [DecidableEq Fd]

/-- What a connection has seen. -/
inductive Deed where
  /-- `on_data` with this message -/
  | chunk (message : Bytes)
  /-- `player_login` has returned without an error -/
  | loggedIn
  deriving DecidableEq

/-- A call of a worker. -/
structure Call (Fd : Type) where
  fd : Fd
  /-- the connection whose chunk causes the call -/
  accept : Option Nat
  pid : Option Bytes
  /-- the pack of a `player_request`; a `player_login` has none -/
  pack : Option Bytes
  /-- what the descriptor has seen since its last accept -/
  deeds : List Deed

/-- The network service with what its connections have seen. -/
structure Watched (Fd Addr : Type) where
  server : Server Fd Addr
  /-- since the last `on_accept` on the descriptor -/
  deeds : Fd → List Deed
  calls : List (Call Fd)
  /-- the connections whose first chunk was not the token -/
  failed : List Nat

/-- `dispatch_wakeup` has run the forked coroutines before the next message is taken. -/
def Server.Drains (s : Server Fd Addr) : Label Fd Addr → Prop
  | .slept | .loggedIn _ | .answer _ _ => s.forked = []
  | _ => True

instance (s : Server Fd Addr) : (label : Label Fd Addr) → Decidable (s.Drains label)
  | .slept | .loggedIn _ | .answer _ _ => inferInstanceAs (Decidable (s.forked = []))
  | .wait _ | .eread | .accepted _ _ | .acceptFailed | .received _ | .recvFailed _ | .start =>
      .isTrue trivial

namespace Watched

/-- The service once `S.start` has forked the loop. -/
def init : Watched Fd Addr where
  server := .init
  deeds := fun _ => []
  calls := []
  failed := []

/-- Record a chunk of data on `fd`. -/
def chunk (w : Watched Fd Addr) (fd : Fd) (message : Bytes) (t : Server Fd Addr) :
    Watched Fd Addr :=
  let deeds := w.deeds fd ++ [.chunk message]
  { server := t
    deeds := Function.update w.deeds fd deeds
    calls := w.calls ++
      match t.loop with
      | .login _ pid _ => [⟨fd, w.server.sockets fd, some pid, none, deeds⟩]
      | _ => []
    failed := w.failed ++
      if w.deeds fd = [] ∧ message ≠ authToken then (w.server.sockets fd).toList else [] }

/-- The effect of a label. -/
def next (w : Watched Fd Addr) (label : Label Fd Addr) : Watched Fd Addr :=
  let t := w.server.next label
  match label with
  | .accepted fd _ => { w with server := t, deeds := Function.update w.deeds fd [] }
  | .received message =>
      match w.server.loop with
      | .handling (fd :: _) => w.chunk fd message t
      | _ => { w with server := t }
  | .loggedIn _ =>
      match w.server.loop, t.loop with
      | .login fd _ _, .handling _ =>
          { w with
            server := t
            deeds := Function.update w.deeds fd (w.deeds fd ++ [.loggedIn]) }
      | _, _ => { w with server := t }
  | .start =>
      match w.server.forked with
      | job :: _ =>
          { w with
            server := t
            calls := w.calls ++ [⟨job.fd, some job.accept, job.pid, some job.pack,
              w.deeds job.fd⟩] }
      | [] => { w with server := t }
  | _ => { w with server := t }

/-- What can happen. -/
def Enabled (ports : Ports Fd) (w : Watched Fd Addr) (label : Label Fd Addr) : Prop :=
  w.server.Enabled ports label ∧ w.server.Drains label

instance (ports : Ports Fd) (w : Watched Fd Addr) (label : Label Fd Addr) :
    Decidable (w.Enabled ports label) :=
  inferInstanceAs (Decidable (w.server.Enabled ports label ∧ w.server.Drains label))

/-- One step of the network service. -/
def Step (ports : Ports Fd) (w : Watched Fd Addr) (label : Label Fd Addr)
    (w' : Watched Fd Addr) : Prop :=
  w.Enabled ports label ∧ w' = w.next label

end Watched

/--
The call carries the player id of the connection's login: the token came first,
then the line with the id, and a request comes after the login has returned.
-/
def Call.Authentic (call : Call Fd) : Prop :=
  ∃ line, call.pid = some line.dropLast ∧
    match call.pack with
    | none => call.deeds = [.chunk authToken, .chunk line]
    | some _ => ∃ chunks, call.deeds =
        .chunk authToken :: .chunk line :: .loggedIn :: chunks ∧ .loggedIn ∉ chunks

/-- What the gate asks of its workers is asked for authenticated connections. -/
structure Watched.Gated (w : Watched Fd Addr) : Prop where
  authentic : ∀ call ∈ w.calls, call.Authentic
  /-- a connection has one player id -/
  steady : ∀ first ∈ w.calls, ∀ second ∈ w.calls, first.accept = second.accept →
    first.pid = second.pid
  /-- no chunk of a connection that failed authentication causes a call -/
  refused : ∀ call ∈ w.calls, ∀ n ∈ w.failed, call.accept ≠ some n

theorem Watched.Gated.keep {w w' : Watched Fd Addr} (gated : w.Gated)
    (calls : w'.calls = w.calls) (failed : w'.failed = w.failed) : w'.Gated := by
  constructor
  · rw [calls]
    exact gated.authentic
  · rw [calls]
    exact gated.steady
  · rw [calls, failed]
    exact gated.refused

/-! ## The invariant -/

/-- Where a connection stands, and what it has seen so far. -/
inductive Stage (loop : Loop Fd) (fd : Fd) (c : Conn Addr) : List Deed → Prop where
  | accepted (authed : c.authed = false) (login : c.login = false) : Stage loop fd c []
  | authed (authed : c.authed = true) (login : c.login = false) :
      Stage loop fd c [.chunk authToken]
  /-- `player_login` has been called; the loop waits, or has ended with the error -/
  | calling (line : Bytes) (authed : c.authed = true) (login : c.login = true)
      (pid : c.pid = some line.dropLast)
      (waits : (∃ fds, loop = .login fd line.dropLast fds) ∨ loop = .raised) :
      Stage loop fd c [.chunk authToken, .chunk line]
  | served (line : Bytes) (chunks : List Deed) (authed : c.authed = true) (login : c.login = true)
      (pid : c.pid = some line.dropLast) (once : .loggedIn ∉ chunks) :
      Stage loop fd c (.chunk authToken :: .chunk line :: .loggedIn :: chunks)

/-- A forked coroutine of a connection that has logged in and is still open. -/
structure Pending (w : Watched Fd Addr) (job : Job Fd) : Prop where
  socket : w.server.sockets job.fd = some job.accept
  /-- the loop does not come to the descriptor before the coroutine has run -/
  apart : job.fd ∉ w.server.loop.left
  pid : ∀ c, w.server.connection job.fd = some c → c.login = true ∧ c.pid = job.pid
  seen : ∃ line chunks, w.deeds job.fd =
    .chunk authToken :: .chunk line :: .loggedIn :: chunks

/-- What every step of the service keeps. -/
structure Watched.Watch (w : Watched Fd Addr) : Prop where
  incarnations : w.server.Incarnations
  stages : ∀ fd n c, w.server.sockets fd = some n → w.server.connection fd = some c →
    Stage w.server.loop fd c (w.deeds fd)
  /-- each descriptor is once in a batch -/
  batch : w.server.loop.left.Nodup
  /-- the descriptor that logs in has sent two chunks and is not in the rest of the batch -/
  login : ∀ fd pid fds, w.server.loop = .login fd pid fds →
    fd ∉ fds ∧ (∃ n, w.server.sockets fd = some n) ∧ (w.deeds fd).length = 2
  idle : w.server.loop = .waiting → w.server.forked = []
  pending : ∀ job ∈ w.server.forked, Pending w job
  gated : w.Gated
  /-- the calls of an open connection are for its player -/
  issued : ∀ call ∈ w.calls, ∀ fd n c, w.server.sockets fd = some n → call.accept = some n →
    w.server.connection fd = some c → c.login = true ∧ c.pid = call.pid
  known : ∀ call ∈ w.calls, ∃ n < w.server.accepts, call.accept = some n
  failed : ∀ n ∈ w.failed, n ∈ w.server.closed

/-- Only a connection that waits for its login looks at where the loop stands. -/
theorem Stage.move {loop : Loop Fd} {fd : Fd} {c : Conn Addr} {deeds : List Deed}
    (stage : Stage loop fd c deeds) (other : ∀ fds pid, loop ≠ .login fd pid fds)
    (alive : loop ≠ .raised) (loop' : Loop Fd) : Stage loop' fd c deeds := by
  cases stage with
  | accepted authed login => exact .accepted authed login
  | authed authed login => exact .authed authed login
  | calling line authed login pid waits =>
      rcases waits with ⟨fds, same⟩ | raised
      · exact absurd same (other fds _)
      · exact absurd raised alive
  | served line chunks authed login pid once => exact .served line chunks authed login pid once

namespace Watched

theorem init_watch : (init : Watched Fd Addr).Watch where
  incarnations := .start
  stages := by simp [init, Server.init]
  batch := by simp [init, Server.init, Loop.left]
  login := by simp [init, Server.init]
  idle _ := rfl
  pending := by simp [init, Server.init]
  gated := ⟨by simp [init], by simp [init], by simp [init]⟩
  issued := by simp [init]
  known := by simp [init]
  failed := by simp [init]

namespace Watch

variable {w : Watched Fd Addr}

/-- A step that leaves the connections and the record alone. -/
theorem carry (watch : w.Watch) {t : Server Fd Addr} (incarnations : t.Incarnations)
    (connection : t.connection = w.server.connection) (sockets : t.sockets = w.server.sockets)
    (accepts : t.accepts = w.server.accepts) (closed : t.closed = w.server.closed)
    (stages : ∀ fd (c : Conn Addr) deeds, Stage w.server.loop fd c deeds →
      Stage t.loop fd c deeds)
    (batch : t.loop.left.Nodup)
    (login : ∀ fd pid fds, t.loop = .login fd pid fds →
      fd ∉ fds ∧ (∃ n, t.sockets fd = some n) ∧ (w.deeds fd).length = 2)
    (idle : t.loop = .waiting → t.forked = [])
    (forked : ∀ job ∈ t.forked, job ∈ w.server.forked ∧ job.fd ∉ t.loop.left) :
    { w with server := t }.Watch where
  incarnations := incarnations
  stages fd n c socket entry := by
    rw [sockets] at socket
    rw [connection] at entry
    exact stages fd c _ (watch.stages fd n c socket entry)
  batch := batch
  login := login
  idle := idle
  pending job member := by
    obtain ⟨old, apart⟩ := forked job member
    have pending := watch.pending job old
    exact ⟨sockets ▸ pending.socket, apart, connection ▸ pending.pid, pending.seen⟩
  gated := ⟨watch.gated.authentic, watch.gated.steady, watch.gated.refused⟩
  issued := by
    rw [sockets, connection]
    exact watch.issued
  known := by
    rw [accepts]
    exact watch.known
  failed := by
    rw [closed]
    exact watch.failed

/-- The loop comes to the next event of its batch. -/
theorem advance (watch : w.Watch) {fd : Fd} {fds : List Fd}
    (loop : w.server.loop = .handling (fd :: fds)) :
    { w with server := { w.server with loop := .handling fds } }.Watch := by
  have batch : (fd :: fds).Nodup := by simpa [loop, Loop.left] using watch.batch
  refine watch.carry (watch.incarnations.carry _ rfl rfl rfl rfl fun _ member => member)
    rfl rfl rfl rfl ?_ (List.nodup_cons.mp batch).2 (by simp) (by simp) ?_
  · exact fun fd c deeds stage => stage.move (by simp [loop]) (by simp [loop]) _
  · intro job member
    have apart := (watch.pending job member).apart
    rw [loop] at apart
    exact ⟨member, fun inRest => apart (List.mem_cons_of_mem _ inRest)⟩

/-- What a step leaves alone that only touches the descriptor at the head of the batch. -/
structure Touches (w w' : Watched Fd Addr) (fd : Fd) (fds : List Fd) : Prop where
  incarnations : w'.server.Incarnations
  accepts : w'.server.accepts = w.server.accepts
  connection : ∀ other ≠ fd, w'.server.connection other = w.server.connection other
  sockets : ∀ other ≠ fd, w'.server.sockets other = w.server.sockets other
  deeds : ∀ other ≠ fd, w'.deeds other = w.deeds other
  left : w'.server.loop.left = fds
  busy : w'.server.loop ≠ .waiting
  login : ∀ other pid rest, w'.server.loop = .login other pid rest →
    other = fd ∧ (∃ n, w'.server.sockets fd = some n) ∧ (w'.deeds fd).length = 2

/-- Such a step, given what it does to the descriptor and to the record. -/
theorem touch (watch : w.Watch) {fd : Fd} {fds : List Fd} {w' : Watched Fd Addr}
    (loop : w.server.loop = .handling (fd :: fds)) (touches : Touches w w' fd fds)
    (stage : ∀ n c, w'.server.sockets fd = some n → w'.server.connection fd = some c →
      Stage w'.server.loop fd c (w'.deeds fd))
    (pending : ∀ job ∈ w'.server.forked, job ∈ w.server.forked ∨ Pending w' job)
    (gated : w'.Gated)
    (issued : ∀ call ∈ w'.calls, ∀ n c, w'.server.sockets fd = some n → call.accept = some n →
      w'.server.connection fd = some c → c.login = true ∧ c.pid = call.pid)
    (calls : ∀ call ∈ w'.calls, call ∈ w.calls ∨ call.accept = w.server.sockets fd)
    (open_ : ∃ n, w.server.sockets fd = some n)
    (failed : ∀ n ∈ w'.failed, n ∈ w'.server.closed) : w'.Watch := by
  have batch : (fd :: fds).Nodup := by simpa [loop, Loop.left] using watch.batch
  obtain ⟨n₀, socket₀⟩ := open_
  refine ⟨touches.incarnations, ?_, touches.left ▸ (List.nodup_cons.mp batch).2, ?_,
    fun waiting => absurd waiting touches.busy, ?_, gated, ?_, ?_, failed⟩
  · intro other n c socket entry
    by_cases here : other = fd
    · subst here
      exact stage n c socket entry
    · rw [touches.sockets other here] at socket
      rw [touches.connection other here] at entry
      rw [touches.deeds other here]
      exact (watch.stages other n c socket entry).move (by simp [loop]) (by simp [loop]) _
  · intro other pid rest login
    obtain ⟨rfl, seen⟩ := touches.login other pid rest login
    obtain rfl : rest = fds := by simpa [login, Loop.left] using touches.left
    exact ⟨(List.nodup_cons.mp batch).1, seen⟩
  · intro job member
    rcases pending job member with old | new
    · have was := watch.pending job old
      have apart := was.apart
      rw [loop] at apart
      have elsewhere : job.fd ≠ fd := fun same => apart (same ▸ List.mem_cons_self)
      refine ⟨(touches.sockets _ elsewhere).trans was.socket, ?_, ?_, ?_⟩
      · rw [touches.left]
        exact fun inRest => apart (List.mem_cons_of_mem _ inRest)
      · rw [touches.connection _ elsewhere]
        exact was.pid
      · rw [touches.deeds _ elsewhere]
        exact was.seen
    · exact new
  · intro call member other n c socket accept entry
    by_cases here : other = fd
    · subst here
      exact issued call member n c socket accept entry
    · rw [touches.sockets other here] at socket
      rw [touches.connection other here] at entry
      rcases calls call member with old | new
      · exact watch.issued call old other n c socket accept entry
      · obtain rfl : n = n₀ := by simpa [accept, socket₀] using new
        exact absurd (watch.incarnations.alone other fd n socket socket₀) here
  · intro call member
    rw [touches.accepts]
    rcases calls call member with old | new
    · exact watch.known call old
    · exact ⟨n₀, watch.incarnations.made fd n₀ socket₀, new.trans socket₀⟩

/-- One more call, for the player of the connection that causes it. -/
theorem gated_call (watch : w.Watch) {call : Call Fd} (authentic : call.Authentic)
    {fd : Fd} {n : Nat} {c : Conn Addr} (socket : w.server.sockets fd = some n)
    (entry : w.server.connection fd = some c) (accept : call.accept = some n)
    (same : c.login = true → c.pid = call.pid) {w' : Watched Fd Addr}
    (calls : w'.calls = w.calls ++ [call]) (failed : w'.failed = w.failed) : w'.Gated := by
  have old : ∀ other ∈ w.calls, other.accept = call.accept → other.pid = call.pid := by
    intro other member equal
    obtain ⟨login, pid⟩ := watch.issued other member fd n c socket (equal.trans accept) entry
    exact pid.symm.trans (same login)
  constructor
  · intro other member
    rw [calls] at member
    rcases List.mem_append.mp member with before | now
    · exact watch.gated.authentic other before
    · exact List.mem_singleton.mp now ▸ authentic
  · intro first member second member' equal
    rw [calls] at member member'
    rcases List.mem_append.mp member with before | now
    · rcases List.mem_append.mp member' with before' | now'
      · exact watch.gated.steady first before second before' equal
      · obtain rfl := List.mem_singleton.mp now'
        exact old first before equal
    · obtain rfl := List.mem_singleton.mp now
      rcases List.mem_append.mp member' with before' | now'
      · exact (old second before' equal.symm).symm
      · rw [List.mem_singleton.mp now']
  · intro other member m refused equal
    rw [calls] at member
    rw [failed] at refused
    rcases List.mem_append.mp member with before | now
    · exact watch.gated.refused other before m refused equal
    · obtain rfl := List.mem_singleton.mp now
      obtain rfl : m = n := Option.some.inj (equal.symm.trans accept)
      exact watch.incarnations.present fd m socket (watch.failed m refused)

/-- One more connection that has failed, without a call of its own. -/
theorem gated_refuse (watch : w.Watch) {n : Nat}
    (silent : ∀ call ∈ w.calls, call.accept ≠ some n) {w' : Watched Fd Addr}
    (calls : w'.calls = w.calls) (failed : w'.failed = w.failed ++ [n]) : w'.Gated := by
  constructor
  · rw [calls]
    exact watch.gated.authentic
  · rw [calls]
    exact watch.gated.steady
  · intro call member m refused
    rw [calls] at member
    rw [failed] at refused
    rcases List.mem_append.mp refused with before | now
    · exact watch.gated.refused call member m before
    · exact List.mem_singleton.mp now ▸ silent call member

/-! ### A chunk of data -/

section Chunk

variable {fd : Fd} {fds : List Fd} {n : Nat} {c : Conn Addr}

/-- The calls of a connection begin with its login. -/
theorem silent_of_login (watch : w.Watch) (socket : w.server.sockets fd = some n)
    (entry : w.server.connection fd = some c) (login : c.login = false) :
    ∀ call ∈ w.calls, call.accept ≠ some n := by
  intro call member same
  have started := (watch.issued call member fd n c socket same entry).1
  rw [login] at started
  cases started

/-- The token comes. -/
theorem welcomed (watch : w.Watch) (loop : w.server.loop = .handling (fd :: fds))
    (socket : w.server.sockets fd = some n) (entry : w.server.connection fd = some c)
    (login : c.login = false) (seen : w.deeds fd = []) {t : Server Fd Addr}
    (shape : t = ({ w.server with
      connection := Function.update w.server.connection fd (some { c with authed := true })
      loop := .handling fds }.send fd Server.authenticated none))
    (incarnations : t.Incarnations) : (w.chunk fd authToken t).Watch := by
  have calls : (w.chunk fd authToken t).calls = w.calls := by simp [chunk, shape, Server.send]
  have failed : (w.chunk fd authToken t).failed = w.failed := by simp [chunk]
  subst shape
  refine watch.touch loop ⟨incarnations, rfl, ?_, fun _ _ => rfl, ?_, rfl, ?_, ?_⟩ ?_
    (fun job member => .inl member) (watch.gated.keep calls failed) ?_ ?_ ⟨n, socket⟩ ?_
  · exact fun other apart => Function.update_of_ne apart ..
  · exact fun other apart => Function.update_of_ne apart ..
  · simp [chunk, Server.send]
  · simp [chunk, Server.send]
  · intro m d _ entry'
    obtain rfl : { c with authed := true } = d := by
      simpa [chunk, Server.send] using entry'
    have stage : Stage (.handling fds) fd { c with authed := true } [.chunk authToken] :=
      .authed rfl login
    simpa [chunk, seen, Server.send] using stage
  · intro call member m d socket' accept
    rw [calls] at member
    obtain rfl : n = m := Option.some.inj (socket.symm.trans socket')
    exact absurd accept (watch.silent_of_login socket entry login call member)
  · intro call member
    exact .inl (calls ▸ member)
  · intro m member
    exact watch.failed m (failed ▸ member)

/-- Something else comes first, and the connection is closed. -/
theorem shutOut (watch : w.Watch) (loop : w.server.loop = .handling (fd :: fds))
    (socket : w.server.sockets fd = some n) (entry : w.server.connection fd = some c)
    (login : c.login = false) (seen : w.deeds fd = []) {message : Bytes}
    (other : message ≠ authToken) {t : Server Fd Addr}
    (shape : t = ({ w.server with
      connection := Function.update w.server.connection fd none
      loop := .handling fds }.close fd))
    (incarnations : t.Incarnations) : (w.chunk fd message t).Watch := by
  have calls : (w.chunk fd message t).calls = w.calls := by simp [chunk, shape, Server.close]
  have failed : (w.chunk fd message t).failed = w.failed ++ [n] := by
    simp [chunk, seen, other, socket]
  have silent := watch.silent_of_login socket entry login
  subst shape
  refine watch.touch loop ⟨incarnations, rfl, ?_, ?_, ?_, rfl, ?_, ?_⟩ ?_
    (fun job member => .inl member) (watch.gated_refuse silent calls failed) ?_ ?_ ⟨n, socket⟩ ?_
  · exact fun other apart => Function.update_of_ne apart ..
  · exact fun other apart => Function.update_of_ne apart ..
  · exact fun other apart => Function.update_of_ne apart ..
  · simp [chunk, Server.close]
  · simp [chunk, Server.close]
  · intro m d socket'
    simp [chunk, Server.close] at socket'
  · intro call member m d socket'
    simp [chunk, Server.close] at socket'
  · intro call member
    exact .inl (calls ▸ member)
  · intro m member
    rw [failed] at member
    rcases List.mem_append.mp member with before | now
    · exact List.mem_append_left _ (watch.failed m before)
    · exact List.mem_append_right _ (by simpa [socket] using List.mem_singleton.mp now)

/-- The line with the player id comes, and `player_login` is called. -/
theorem identified (watch : w.Watch) (loop : w.server.loop = .handling (fd :: fds))
    (socket : w.server.sockets fd = some n) (entry : w.server.connection fd = some c)
    (authed : c.authed = true) (login : c.login = false)
    (seen : w.deeds fd = [.chunk authToken]) (message : Bytes) {t : Server Fd Addr}
    (shape : t = { w.server with
      connection := Function.update w.server.connection fd
        (some { c with pid := some message.dropLast, login := true })
      loop := .login fd message.dropLast fds })
    (incarnations : t.Incarnations) : (w.chunk fd message t).Watch := by
  have deeds : w.deeds fd ++ [.chunk message] = [.chunk authToken, .chunk message] := by
    rw [seen]
    rfl
  have calls : (w.chunk fd message t).calls = w.calls ++
      [⟨fd, some n, some message.dropLast, none, [.chunk authToken, .chunk message]⟩] := by
    simp [chunk, shape, seen, socket]
  have failed : (w.chunk fd message t).failed = w.failed := by simp [chunk, seen]
  have authentic : Call.Authentic ⟨fd, some n, some message.dropLast, none,
      [.chunk authToken, .chunk message]⟩ := ⟨message, rfl, rfl⟩
  have gated := watch.gated_call authentic socket entry rfl
    (fun started => absurd started (by simp [login])) calls failed
  subst shape
  refine watch.touch loop ⟨incarnations, rfl, ?_, fun _ _ => rfl, ?_, rfl, ?_, ?_⟩ ?_
    (fun job member => .inl member) gated ?_ ?_ ⟨n, socket⟩ ?_
  · exact fun other apart => Function.update_of_ne apart ..
  · exact fun other apart => Function.update_of_ne apart ..
  · simp [chunk]
  · intro other pid rest loop'
    obtain ⟨rfl, -, -⟩ : fd = other ∧ message.dropLast = pid ∧ fds = rest := by
      simpa [chunk] using loop'
    exact ⟨rfl, ⟨n, socket⟩, by simp [chunk, seen]⟩
  · intro m d _ entry'
    obtain rfl : { c with pid := some message.dropLast, login := true } = d := by
      simpa [chunk] using entry'
    have stage : Stage (.login fd message.dropLast fds) fd
        { c with pid := some message.dropLast, login := true }
        [.chunk authToken, .chunk message] :=
      .calling message authed rfl rfl (.inl ⟨fds, rfl⟩)
    simpa [chunk, deeds] using stage
  · intro call member m d socket' accept entry'
    obtain rfl : n = m := Option.some.inj (socket.symm.trans socket')
    obtain rfl : { c with pid := some message.dropLast, login := true } = d := by
      simpa [chunk] using entry'
    rw [calls] at member
    rcases List.mem_append.mp member with before | now
    · exact absurd accept (watch.silent_of_login socket entry login call before)
    · rw [List.mem_singleton.mp now]
      exact ⟨rfl, rfl⟩
  · intro call member
    rw [calls] at member
    rcases List.mem_append.mp member with before | now
    · exact .inl before
    · right
      rw [List.mem_singleton.mp now, socket]
  · intro m member
    exact watch.failed m (failed ▸ member)

/-- Frames come, and a coroutine is forked for each. -/
theorem served (watch : w.Watch) (loop : w.server.loop = .handling (fd :: fds))
    (socket : w.server.sockets fd = some n) (entry : w.server.connection fd = some c)
    (accept : c.accept = n) {line : Bytes} {chunks : List Deed} (authed : c.authed = true)
    (login : c.login = true) (pid : c.pid = some line.dropLast) (once : .loggedIn ∉ chunks)
    (seen : w.deeds fd = .chunk authToken :: .chunk line :: .loggedIn :: chunks)
    (message last : Bytes) (packs : List Bytes) {t : Server Fd Addr}
    (shape : t = { w.server with
      connection := Function.update w.server.connection fd (some { c with last := last })
      loop := .handling fds
      forked := w.server.forked ++ packs.map fun pack => ⟨fd, c.pid, pack, c.accept⟩ })
    (incarnations : t.Incarnations) : (w.chunk fd message t).Watch := by
  have batch : (fd :: fds).Nodup := by simpa [loop, Loop.left] using watch.batch
  have deeds : (w.chunk fd message t).deeds fd =
      .chunk authToken :: .chunk line :: .loggedIn :: (chunks ++ [.chunk message]) := by
    simp [chunk, seen]
  have calls : (w.chunk fd message t).calls = w.calls := by simp [chunk, shape]
  have failed : (w.chunk fd message t).failed = w.failed := by simp [chunk, seen]
  subst shape
  refine watch.touch loop ⟨incarnations, rfl, ?_, fun _ _ => rfl, ?_, rfl, ?_, ?_⟩ ?_ ?_
    (watch.gated.keep calls failed) ?_ ?_ ⟨n, socket⟩ ?_
  · exact fun other apart => Function.update_of_ne apart ..
  · exact fun other apart => Function.update_of_ne apart ..
  · simp [chunk]
  · simp [chunk]
  · intro m d _ entry'
    obtain rfl : { c with last := last } = d := by simpa [chunk] using entry'
    rw [deeds]
    exact .served line _ authed login pid (by simpa using once)
  · intro job member
    rcases List.mem_append.mp member with old | new
    · exact .inl old
    · obtain ⟨pack, -, rfl⟩ := List.mem_map.mp new
      right
      refine ⟨by rw [accept]; exact socket, (List.nodup_cons.mp batch).1, ?_, line, _, deeds⟩
      intro d entry'
      obtain rfl : { c with last := last } = d := by simpa [chunk] using entry'
      exact ⟨login, rfl⟩
  · intro call member m d socket' accept' entry'
    obtain rfl : { c with last := last } = d := by simpa [chunk] using entry'
    exact watch.issued call (calls ▸ member) fd m c socket' accept' entry
  · intro call member
    exact .inl (calls ▸ member)
  · intro m member
    exact watch.failed m (failed ▸ member)

end Chunk

theorem received (watch : w.Watch) {ports : Ports Fd} {message : Bytes}
    (taken : Step ports w (.received message) (w.next (.received message))) :
    (w.next (.received message)).Watch := by
  have incarnations : (w.server.next (.received message)).Incarnations :=
    watch.incarnations.step ⟨taken.1.1, rfl⟩
  obtain ⟨fd, fds, n, c, loop, socket, entry, accept, -⟩ :=
    watch.incarnations.of_received taken.1.1
  have stage := watch.stages fd n c socket entry
  simp only [Watched.next, Server.next, loop] at incarnations ⊢
  generalize seen : w.deeds fd = deeds at stage
  cases stage with
  | accepted authed login =>
      have shape := Server.onData_of_accepted w.server fd message fds entry authed
      by_cases token : message = authToken
      · subst token
        exact watch.welcomed loop socket entry login seen (by rw [shape, if_pos rfl]) incarnations
      · exact watch.shutOut loop socket entry login seen token (by rw [shape, if_neg token])
          incarnations
  | authed authed login =>
      exact watch.identified loop socket entry authed login seen message
        (Server.onData_of_authed w.server fd message fds entry authed login) incarnations
  | calling line authed login pid waits => simp [loop] at waits
  | served line chunks authed login pid once =>
      exact watch.served loop socket entry accept authed login pid once seen message _ _
        (Server.onData_of_login w.server fd message fds entry authed login) incarnations

/-! ### The other labels -/

/-- A new connection, on a descriptor that was not open. -/
theorem accepted (watch : w.Watch) {ports : Ports Fd} {fd : Fd} {addr : Addr}
    (taken : Step ports w (.accepted fd addr) (w.next (.accepted fd addr))) :
    (w.next (.accepted fd addr)).Watch := by
  have incarnations : (w.server.next (.accepted fd addr)).Incarnations :=
    watch.incarnations.step ⟨taken.1.1, rfl⟩
  obtain ⟨event, -, -, -, vacant⟩ := taken.1.1
  obtain ⟨fds, loop⟩ := Loop.handling_of_event event
  have later := watch.advance loop
  have younger : ∀ call ∈ w.calls, call.accept ≠ some w.server.accepts := by
    intro call member same
    obtain ⟨m, less, accept⟩ := watch.known call member
    rw [accept] at same
    exact absurd (Option.some.inj same) (Nat.ne_of_lt less)
  simp only [Watched.next, Server.next, loop] at incarnations ⊢
  refine ⟨incarnations, ?_, later.batch, by simp, by simp, ?_,
    ⟨later.gated.authentic, later.gated.steady, later.gated.refused⟩, ?_, ?_, later.failed⟩
  · intro other n c socket entry
    by_cases here : other = fd
    · subst here
      obtain rfl : ⟨addr, false, false, none, [], w.server.accepts⟩ = c := by
        simpa [onAccept] using entry
      have stage : Stage (.handling fds) other
          (⟨addr, false, false, none, [], w.server.accepts⟩ : Conn Addr) [] :=
        .accepted rfl rfl
      simpa using stage
    · have stage := later.stages other n c (by simpa [here] using socket)
        (by simpa [onAccept, here] using entry)
      simpa [here] using stage
  · intro job member
    have was := later.pending job member
    have apart : job.fd ≠ fd := by
      intro same
      have socket := was.socket
      rw [same, vacant] at socket
      cases socket
    refine ⟨by simpa [apart] using was.socket, was.apart, ?_, by simpa [apart] using was.seen⟩
    simpa [onAccept, apart] using was.pid
  · intro call member other n c socket accept entry
    by_cases here : other = fd
    · subst here
      obtain rfl : w.server.accepts = n := by simpa using socket
      exact absurd accept (younger call member)
    · exact later.issued call member other n c (by simpa [here] using socket) accept
        (by simpa [onAccept, here] using entry)
  · intro call member
    obtain ⟨m, less, accept⟩ := later.known call member
    exact ⟨m, Nat.lt_succ_of_lt less, accept⟩

/-- A connection is closed when its turn comes, and no coroutine of it is left. -/
theorem closed (watch : w.Watch) {fd : Fd} {fds : List Fd}
    (loop : w.server.loop = .handling (fd :: fds)) :
    { w with
      server := ({ w.server with loop := .handling fds } : Server Fd Addr).close fd }.Watch := by
  have later := watch.advance loop
  have elsewhere : ∀ {other n}, Function.update w.server.sockets fd none other = some n →
      other ≠ fd ∧ w.server.sockets other = some n := by
    intro other n socket
    by_cases here : other = fd
    · simp [here] at socket
    · exact ⟨here, by simpa [here] using socket⟩
  refine ⟨later.incarnations.close fd, ?_, later.batch, by simp [Server.close],
    by simp [Server.close], ?_,
    ⟨later.gated.authentic, later.gated.steady, later.gated.refused⟩, ?_, later.known, ?_⟩
  · exact fun other n c socket entry => later.stages other n c (elsewhere socket).2 entry
  · intro job member
    have was := later.pending job member
    have apart : job.fd ≠ fd := by
      intro same
      have apart := (watch.pending job member).apart
      rw [loop] at apart
      exact apart (same ▸ List.mem_cons_self)
    exact ⟨by simpa [Server.close, apart] using was.socket, was.apart, was.pid, was.seen⟩
  · exact fun call member other n c socket accept entry =>
      later.issued call member other n c (elsewhere socket).2 accept entry
  · exact fun n member => List.mem_append_left _ (later.failed n member)

/-- The login returns, or its error ends the loop. -/
theorem loggedIn (watch : w.Watch) {ports : Ports Fd} {answers : Answers}
    (taken : Step ports w (.loggedIn answers) (w.next (.loggedIn answers))) :
    (w.next (.loggedIn answers)).Watch := by
  have incarnations : (w.server.next (.loggedIn answers)).Incarnations :=
    watch.incarnations.step ⟨taken.1.1, rfl⟩
  have drained : w.server.forked = [] := taken.1.2
  obtain ⟨fd, pid, fds, loop⟩ := Loop.login_of_loggingIn taken.1.1
  obtain ⟨-, -, two⟩ := watch.login fd pid fds loop
  have batch : fds.Nodup := by simpa [loop, Loop.left] using watch.batch
  by_cases passed : playerLogin w.server.players pid answers = true
  · simp only [Watched.next, Server.next, loop, passed, if_true] at incarnations ⊢
    refine ⟨incarnations, ?_, batch, by simp, by simp, by simp [Server.send, drained],
      ⟨watch.gated.authentic, watch.gated.steady, watch.gated.refused⟩, watch.issued, watch.known,
      watch.failed⟩
    intro other m c socket' entry
    by_cases here : other = fd
    · subst here
      have stage := watch.stages other m c socket' entry
      generalize seen : w.deeds other = deeds at stage
      rw [seen] at two
      cases stage with
      | calling line authed login pid waits =>
          have stage : Stage (.handling fds) other c
              [.chunk authToken, .chunk line, .loggedIn] :=
            .served line [] authed login pid (by simp)
          simpa [seen, Server.send] using stage
      | accepted | authed | served => simp at two
    · have stage := (watch.stages other m c socket' entry).move
        (by simp [loop, Ne.symm here]) (by simp [loop]) (.handling fds)
      simpa [here, Server.send] using stage
  · simp only [Watched.next, Server.next, loop, passed] at incarnations ⊢
    refine watch.carry incarnations rfl rfl rfl rfl ?_ (by simp [Loop.left]) (by simp) (by simp)
      (by simp [drained])
    intro other c deeds stage
    cases stage with
    | accepted authed login => exact .accepted authed login
    | authed authed login => exact .authed authed login
    | calling line authed login pid waits => exact .calling line authed login pid (.inr rfl)
    | served line chunks authed login pid once => exact .served line chunks authed login pid once

/-- A forked coroutine asks its worker. -/
theorem start (watch : w.Watch) {ports : Ports Fd}
    (taken : Step ports w .start (w.next .start)) : (w.next .start).Watch := by
  have incarnations : (w.server.next .start).Incarnations :=
    watch.incarnations.step ⟨taken.1.1, rfl⟩
  cases forked : w.server.forked with
  | nil => exact absurd forked taken.1.1.2
  | cons job rest =>
      have pending := watch.pending job (by simp [forked])
      obtain ⟨c, entry, -⟩ := watch.incarnations.known _ _ pending.socket
      have pid := (pending.pid c entry).2
      have stage := watch.stages _ _ c pending.socket entry
      have authentic : Call.Authentic (⟨job.fd, some job.accept, job.pid, some job.pack,
          w.deeds job.fd⟩ : Call Fd) := by
        obtain ⟨line, chunks, seen⟩ := pending.seen
        rw [seen] at stage
        cases stage with
        | served _ _ authed login pid' once =>
            exact ⟨line, pid.symm.trans pid', chunks, seen, once⟩
      have gated : (w.next .start).Gated :=
        watch.gated_call authentic pending.socket entry rfl (fun _ => pid)
          (by simp [Watched.next, forked]) (by simp [Watched.next, forked])
      simp only [Watched.next, Server.next, forked] at incarnations gated ⊢
      refine ⟨incarnations, watch.stages, watch.batch, watch.login, ?_, ?_, gated, ?_, ?_,
        watch.failed⟩
      · intro waiting
        have none := watch.idle waiting
        simp [forked] at none
      · intro other member
        have was := watch.pending other (by simp [forked, member])
        exact ⟨was.socket, was.apart, was.pid, was.seen⟩
      · intro call member fd n d socket accept entry'
        rcases List.mem_append.mp member with before | now
        · exact watch.issued call before fd n d socket accept entry'
        · obtain rfl := List.mem_singleton.mp now
          obtain rfl : job.accept = n := Option.some.inj accept
          obtain rfl := watch.incarnations.alone _ _ _ socket pending.socket
          exact pending.pid d entry'
      · intro call member
        rcases List.mem_append.mp member with before | now
        · exact watch.known call before
        · rw [List.mem_singleton.mp now]
          exact ⟨job.accept, watch.incarnations.made _ _ pending.socket, rfl⟩

theorem step (watch : w.Watch) {ports : Ports Fd} {label : Label Fd Addr} {w' : Watched Fd Addr}
    (taken : Step ports w label w') : w'.Watch := by
  have incarnations := watch.incarnations.step (s := w.server) ⟨taken.1.1, rfl⟩
  obtain ⟨⟨enabled, drains⟩, rfl⟩ := taken
  cases label with
  | wait events =>
      cases events with
      | none =>
          have drained := watch.idle enabled
          exact watch.carry incarnations rfl rfl rfl rfl
            (fun fd c deeds stage => stage.move (by simp [show w.server.loop = _ from enabled])
              (by simp [show w.server.loop = _ from enabled]) _)
            (by simp [Server.next, Loop.left]) (by simp [Server.next]) (by simp [Server.next])
            (by simp [Server.next, drained])
      | some fds =>
          have drained := watch.idle enabled.1
          exact watch.carry incarnations rfl rfl rfl rfl
            (fun fd c deeds stage => stage.move (by simp [enabled.1]) (by simp [enabled.1]) _)
            enabled.2.1 (by simp [Server.next]) (by simp [Server.next])
            (by simp [Server.next, drained])
  | eread =>
      obtain ⟨fds, loop⟩ := Loop.handling_of_event enabled
      simp only [Watched.next, Server.next, loop]
      exact watch.advance loop
  | acceptFailed =>
      obtain ⟨fds, loop⟩ := Loop.handling_of_event enabled.1
      simp only [Watched.next, Server.next, loop]
      exact watch.advance loop
  | accepted fd addr => exact watch.accepted ⟨⟨enabled, drains⟩, rfl⟩
  | received message => exact watch.received ⟨⟨enabled, drains⟩, rfl⟩
  | recvFailed shut =>
      obtain ⟨fd, event, -⟩ := enabled
      obtain ⟨fds, loop⟩ := Loop.handling_of_event event
      simp only [Watched.next, Server.next, loop]
      cases shut with
      | true => exact watch.closed loop
      | false => exact watch.advance loop
  | loggedIn answers => exact watch.loggedIn ⟨⟨enabled, drains⟩, rfl⟩
  | slept =>
      have loop : w.server.loop = .handling [] := enabled
      have drained : w.server.forked = [] := drains
      exact watch.carry incarnations rfl rfl rfl rfl
        (fun fd c deeds stage => stage.move (by simp [loop]) (by simp [loop]) _)
        (by simp [Server.next, Loop.left]) (by simp [Server.next]) (fun _ => drained)
        (by simp [Server.next, drained])
  | start => exact watch.start ⟨⟨enabled, drains⟩, rfl⟩
  | answer job resp =>
      have drained : w.server.forked = [] := drains
      cases resp <;>
        exact watch.carry incarnations rfl rfl rfl rfl (fun _ _ _ stage => stage) watch.batch
          watch.login watch.idle (by simp [Server.next, Server.send, drained])

end Watch

/-! ## Runs -/

/--
In every run of the network service, each request and each login that the gate
asks of a worker is for the player of the connection's own login, which the token
went before; a request comes after the login has returned, a connection keeps its
player, and one that has failed authentication causes no call.
-/
theorem gated_of_run {ports : Ports Fd} {steps : List (Watched Fd Addr × Label Fd Addr)}
    {w : Watched Fd Addr} (run : Lib.Run (Step ports) init steps w) : w.Gated :=
  (run.invariant (fun _ _ => True) Watch init_watch (fun _ _ _ watch _ taken => watch.step taken)
    (fun _ _ => trivial)).gated

/-- A client logs in as `a`, asks and leaves; the next one on its descriptor logs in as `b`. -/
def reuseRun : List (Label Nat Unit) :=
  [.wait (some [4]), .accepted 7 (), .slept, .wait (some [7]), .received authToken, .slept,
    .wait (some [7]), .received [97, 10], .loggedIn ⟨.document, true⟩, .slept,
    .wait (some [7]), .received [0, 1, 65], .start, .slept, .wait (some [7]), .recvFailed true,
    .slept, .wait (some [4]), .accepted 7 (), .slept, .wait (some [7]), .received authToken,
    .slept, .wait (some [7]), .received [98, 10], .loggedIn ⟨.document, true⟩, .slept,
    .wait (some [7]), .received [0, 1, 65], .start]

theorem reuseRun_legal :
    Lib.Legal (Enabled ⟨3, 4⟩) next (init : Watched Nat Unit) reuseRun := by
  decide

theorem gated_of_reuseRun : (reuseRun.foldl next (init : Watched Nat Unit)).Gated :=
  gated_of_run (Lib.Run.of_legal reuseRun_legal)

/-- Both connections have asked, each for its own player. -/
example : (reuseRun.foldl next (init : Watched Nat Unit)).calls.map
    (fun call => (call.accept, call.pid, call.pack)) =
    [(some 0, some [97], none), (some 0, some [97], some [65]),
      (some 1, some [98], none), (some 1, some [98], some [65])] := by
  decide

end Watched

end WindLtask.Gate
