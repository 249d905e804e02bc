import WindLtask.Gate.Survival

/-!
# Input under edge triggering

The network service is run together with the kernel: the bytes and connections
that wait, and the events that `epoll` has to report.  With `EPOLLET` an event is
for new input, and input that was there before an event was taken is not reported
again.  The loop takes one connection for each event of the listening socket and
calls `recv` once, for at most 1024 bytes, for each event of a client.
-/

set_option linter.unusedSectionVars false

namespace WindLtask.Gate

variable {Fd Addr : Type} [DecidableEq Fd]

namespace Server

/-- Whatever the gate does with a chunk, it touches no other socket. -/
theorem Handled.kernel {s t : Server Fd Addr} {fd : Fd}
    {fds : List Fd} {c : Conn Addr} (outcome : Handled s fd fds c t) :
    t.loop.left = fds ∧ (∀ other ≠ fd, t.sockets other = s.sockets other) ∧
      ((t.sockets fd).isSome → t.sockets fd = s.sockets fd) := by
  cases outcome with
  | shutdown => exact ⟨rfl, fun other apart => by simp [close, apart], by simp [close]⟩
  | welcome | login | requests => exact ⟨rfl, fun _ _ => rfl, fun _ => rfl⟩

end Server

/-- The descriptors that `S.start` opens are two. -/
structure Opened (Fd : Type) extends Ports Fd where
  distinct : efd ≠ listenfd

/-- A connection that has not been accepted. -/
structure Caller where
  bytes : Bytes
  /-- the peer has closed it -/
  ended : Bool
  deriving DecidableEq

/-- The network service with its sockets. -/
structure Edge (Fd Addr : Type) where
  server : Server Fd Addr
  /-- the connections that wait on the listening socket, the oldest first -/
  backlog : List Caller
  unread : Fd → Bytes
  ended : Fd → Bool
  /-- the events that `epoll.wait` has not returned -/
  pending : Fd → Bool
  /-- all bytes that have arrived on the connection -/
  arrived : Fd → Bytes
  /-- those that `on_data` has been called with -/
  passed : Fd → Bytes
  /-- how many had arrived when the last event of the descriptor was returned -/
  reported : Fd → Nat

namespace Edge

/-- What happens next. -/
inductive Event (Fd Addr : Type) where
  | server (label : Label Fd Addr)
  | connect
  /-- a connection in the backlog sends bytes -/
  | early (index : Nat) (bytes : Bytes)
  | earlyEnd (index : Nat)
  | bytes (fd : Fd) (bytes : Bytes)
  | ends (fd : Fd)
  /-- a worker writes to the descriptor that wakes the loop -/
  | ring

/-- The service once `S.start` has forked the loop. -/
def init : Edge Fd Addr where
  server := .init
  backlog := []
  unread := fun _ => []
  ended := fun _ => false
  pending := fun _ => false
  arrived := fun _ => []
  passed := fun _ => []
  reported := fun _ => 0

/-- What a binding takes from the kernel. -/
def take (e : Edge Fd Addr) : Label Fd Addr → Edge Fd Addr
  | .wait (some fds) =>
      { e with
        pending := fun fd => if fd ∈ fds then false else e.pending fd
        reported := fun fd => if fd ∈ fds then (e.arrived fd).length else e.reported fd }
  | .accepted fd _ =>
      match e.backlog with
      | caller :: rest =>
          { e with
            backlog := rest
            unread := Function.update e.unread fd caller.bytes
            ended := Function.update e.ended fd caller.ended
            -- the descriptor is registered with what has arrived already
            pending := Function.update e.pending fd (!caller.bytes.isEmpty || caller.ended)
            arrived := Function.update e.arrived fd caller.bytes
            passed := Function.update e.passed fd []
            reported := Function.update e.reported fd 0 }
      | [] => e
  | .received message =>
      match e.server.loop.event with
      | some fd =>
          { e with
            unread := Function.update e.unread fd ((e.unread fd).drop message.length)
            passed := Function.update e.passed fd (e.passed fd ++ message) }
      | none => e
  | _ => e

/-- The effect of an event. -/
def next (ports : Ports Fd) (e : Edge Fd Addr) : Event Fd Addr → Edge Fd Addr
  | .server label =>
      let server := e.server.next label
      { e.take label with
        server := server
        -- a descriptor that is closed is no longer registered
        pending := fun fd =>
          if (e.server.sockets fd).isSome && (server.sockets fd).isNone then false
          else (e.take label).pending fd }
  | .connect =>
      { e with
        backlog := e.backlog ++ [⟨[], false⟩]
        pending := Function.update e.pending ports.listenfd true }
  | .early index bytes =>
      { e with backlog := e.backlog.modify index fun caller =>
          { caller with bytes := caller.bytes ++ bytes } }
  | .earlyEnd index =>
      { e with backlog := e.backlog.modify index fun caller => { caller with ended := true } }
  | .bytes fd bytes =>
      { e with
        unread := Function.update e.unread fd (e.unread fd ++ bytes)
        arrived := Function.update e.arrived fd (e.arrived fd ++ bytes)
        pending := Function.update e.pending fd true }
  | .ends fd =>
      { e with
        ended := Function.update e.ended fd true
        pending := Function.update e.pending fd true }
  | .ring => { e with pending := Function.update e.pending ports.efd true }

/-- What the kernel lets a binding return. -/
def Returns (e : Edge Fd Addr) : Label Fd Addr → Prop
  | .wait (some fds) => fds ≠ [] ∧ fds.length ≤ 512 ∧ ∀ fd ∈ fds, e.pending fd
  | .accepted _ _ => e.backlog ≠ []
  | .received message => ∃ fd ∈ e.server.loop.event, message = (e.unread fd).take 1024
  | .recvFailed closed => ∃ fd ∈ e.server.loop.event, e.unread fd = [] ∧ (closed → e.ended fd)
  | _ => True

/-- What can happen. -/
def Enabled (ports : Ports Fd) (e : Edge Fd Addr) : Event Fd Addr → Prop
  | .server label => e.server.Enabled ports label ∧ e.Returns label
  | .bytes fd _ | .ends fd => (e.server.sockets fd).isSome ∧ e.ended fd = false
  | .connect | .early _ _ | .earlyEnd _ | .ring => True

/-- One step of the service and the kernel. -/
def Step (ports : Ports Fd) (e : Edge Fd Addr) (event : Event Fd Addr) (e' : Edge Fd Addr) :
    Prop :=
  e.Enabled ports event ∧ e' = e.next ports event

/-- No input waits without an event that reports it. -/
structure Drained (ports : Ports Fd) (e : Edge Fd Addr) : Prop where
  bytes : ∀ fd, (e.server.sockets fd).isSome → e.unread fd ≠ [] → e.pending fd
  backlog : e.backlog ≠ [] → e.pending ports.listenfd
  /-- `on_data` has had every byte from before the last event of the descriptor -/
  passed : ∀ fd, (e.server.sockets fd).isSome →
    ∃ later, e.arrived fd = e.passed fd ++ later ∧ e.reported fd ≤ (e.passed fd).length

/--
One call takes what its event has reported: `recv` finds at most 1024 of the
bytes that had arrived then, or the gate closes the connection because of them;
`accept` finds one connection, or another event is to come.
-/
def Fits (ports : Ports Fd) (e : Edge Fd Addr) : Event Fd Addr → Prop
  | .server (.received message) => ∀ fd ∈ e.server.loop.event,
      e.reported fd ≤ (e.passed fd).length + 1024 ∨
        ∃ c ∈ e.server.connection fd, c.authed = false ∧ message ≠ authToken
  | .server (.accepted _ _) => e.backlog.length ≤ 1 ∨ e.pending ports.listenfd
  | .server .acceptFailed => e.backlog = [] ∨ e.pending ports.listenfd
  | _ => True

instance (e : Edge Fd Addr) : (label : Label Fd Addr) → Decidable (e.Returns label)
  | .wait (some fds) =>
      inferInstanceAs (Decidable (fds ≠ [] ∧ fds.length ≤ 512 ∧ ∀ fd ∈ fds, e.pending fd))
  | .accepted _ _ => inferInstanceAs (Decidable (e.backlog ≠ []))
  | .received message => inferInstanceAs (Decidable
      (∃ fd ∈ e.server.loop.event, message = (e.unread fd).take 1024))
  | .recvFailed closed => inferInstanceAs (Decidable
      (∃ fd ∈ e.server.loop.event, e.unread fd = [] ∧ (closed → e.ended fd)))
  | .wait none | .eread | .acceptFailed | .loggedIn _ | .slept | .start | .answer _ _ =>
      .isTrue trivial

instance (ports : Ports Fd) (e : Edge Fd Addr) :
    (event : Event Fd Addr) → Decidable (e.Enabled ports event)
  | .server label => inferInstanceAs (Decidable (e.server.Enabled ports label ∧ e.Returns label))
  | .bytes fd _ | .ends fd =>
      inferInstanceAs (Decidable ((e.server.sockets fd).isSome ∧ e.ended fd = false))
  | .connect | .early _ _ | .earlyEnd _ | .ring => .isTrue trivial

instance (ports : Ports Fd) (e : Edge Fd Addr) :
    (event : Event Fd Addr) → Decidable (e.Fits ports event)
  | .server (.received message) => inferInstanceAs (Decidable (∀ fd ∈ e.server.loop.event,
      e.reported fd ≤ (e.passed fd).length + 1024 ∨
        ∃ c ∈ e.server.connection fd, c.authed = false ∧ message ≠ authToken))
  | .server (.accepted _ _) =>
      inferInstanceAs (Decidable (e.backlog.length ≤ 1 ∨ e.pending ports.listenfd))
  | .server .acceptFailed =>
      inferInstanceAs (Decidable (e.backlog = [] ∨ e.pending ports.listenfd))
  | .server (.wait _) | .server .eread | .server (.recvFailed _) | .server (.loggedIn _)
  | .server .slept | .server .start | .server (.answer _ _) => .isTrue trivial
  | .connect | .early _ _ | .earlyEnd _ | .bytes _ _ | .ends _ | .ring => .isTrue trivial

/-! ## One client -/

/-- What the kernel and the loop know of the input of an open connection. -/
structure Fine (e : Edge Fd Addr) (fd : Fd) : Prop where
  split : e.arrived fd = e.passed fd ++ e.unread fd
  reported : e.reported fd ≤ (e.arrived fd).length
  clear : fd ∉ e.server.loop.left → e.pending fd = false → e.unread fd = []
  exact : fd ∈ e.server.loop.left → e.pending fd = false → (e.arrived fd).length = e.reported fd
  had : fd ∉ e.server.loop.left → e.reported fd ≤ (e.passed fd).length

/-- A step that does not touch the connection. -/
theorem Fine.keep {e e' : Edge Fd Addr} {fd : Fd} (fine : Fine e fd)
    (unread : e'.unread fd = e.unread fd) (pending : e'.pending fd = e.pending fd)
    (arrived : e'.arrived fd = e.arrived fd) (passed : e'.passed fd = e.passed fd)
    (reported : e'.reported fd = e.reported fd)
    (left : fd ∈ e'.server.loop.left ↔ fd ∈ e.server.loop.left) : Fine e' fd := by
  constructor
  · rw [unread, arrived, passed]
    exact fine.split
  · rw [reported, arrived]
    exact fine.reported
  · rw [unread, pending, left]
    exact fine.clear
  · rw [arrived, pending, reported, left]
    exact fine.exact
  · rw [reported, passed, left]
    exact fine.had

/-- New input sets an event, whatever it is. -/
theorem Fine.arrive {e e' : Edge Fd Addr} {fd : Fd} (fine : Fine e fd) (bytes : Bytes)
    (unread : e'.unread fd = e.unread fd ++ bytes) (pending : e'.pending fd = true)
    (arrived : e'.arrived fd = e.arrived fd ++ bytes) (passed : e'.passed fd = e.passed fd)
    (reported : e'.reported fd = e.reported fd) (server : e'.server = e.server) :
    Fine e' fd := by
  have fits := fine.reported
  constructor
  · rw [unread, arrived, passed, fine.split, List.append_assoc]
  · rw [reported, arrived, List.length_append]
    omega
  · simp [pending]
  · simp [pending]
  · rw [reported, passed, server]
    exact fine.had

/-- The event of the connection has been handled. -/
theorem Fine.read {e e' : Edge Fd Addr} {fd : Fd} (fine : Fine e fd)
    (inBatch : fd ∈ e.server.loop.left) (handled : fd ∉ e'.server.loop.left)
    (fits : e.reported fd ≤ (e.passed fd).length + 1024)
    (unread : e'.unread fd = (e.unread fd).drop 1024) (pending : e'.pending fd = e.pending fd)
    (arrived : e'.arrived fd = e.arrived fd)
    (passed : e'.passed fd = e.passed fd ++ (e.unread fd).take 1024)
    (reported : e'.reported fd = e.reported fd) : Fine e' fd := by
  have size := congrArg List.length fine.split
  have had := fine.reported
  rw [List.length_append] at size
  constructor
  · rw [unread, arrived, passed, fine.split, List.append_assoc, List.take_append_drop]
  · rw [reported, arrived]
    exact fine.reported
  · intro _ off
    have all := fine.exact inBatch (pending ▸ off)
    rw [unread]
    exact List.drop_eq_nil_of_le (by omega)
  · exact fun inRest => absurd inRest handled
  · intro _
    rw [reported, passed, List.length_append, List.length_take]
    omega

/-! ## All descriptors -/

/-- What every fitting step keeps while the loop is alive. -/
structure Kept (ports : Opened Fd) (e : Edge Fd Addr) : Prop where
  incarnations : e.server.Incarnations
  apart : e.server.sockets ports.efd = none ∧ e.server.sockets ports.listenfd = none
  batch : e.server.loop.left.Nodup
  inside : ∀ fd ∈ e.server.loop.left,
    fd = ports.efd ∨ fd = ports.listenfd ∨ (e.server.sockets fd).isSome
  fine : ∀ fd, (e.server.sockets fd).isSome → Fine e fd
  backlog : ports.listenfd ∉ e.server.loop.left → e.pending ports.listenfd = false →
    e.backlog = []

namespace Kept

variable {ports : Opened Fd} {e : Edge Fd Addr}

theorem init : Kept ports (init : Edge Fd Addr) where
  incarnations := .start
  apart := ⟨rfl, rfl⟩
  batch := by simp [Edge.init, Server.init, Loop.left]
  inside := by simp [Edge.init, Server.init, Loop.left]
  fine := by simp [Edge.init, Server.init]
  backlog _ _ := rfl

theorem drained (kept : Kept ports e) (waiting : e.server.loop = .waiting) :
    Drained ports.toPorts e where
  bytes fd opened unread := by
    by_contra off
    exact unread ((kept.fine fd opened).clear (by simp [waiting, Loop.left]) (by simpa using off))
  backlog waits := by
    by_contra off
    exact waits (kept.backlog (by simp [waiting, Loop.left]) (by simpa using off))
  passed fd opened := by
    have fine := kept.fine fd opened
    exact ⟨_, fine.split, fine.had (by simp [waiting, Loop.left])⟩

/-- A step that only moves the loop, and not within its batch. -/
theorem carry (kept : Kept ports e) {e' : Edge Fd Addr} (incarnations : e'.server.Incarnations)
    (sockets : e'.server.sockets = e.server.sockets)
    (left : e'.server.loop.left = e.server.loop.left) (backlog : e'.backlog = e.backlog)
    (unread : e'.unread = e.unread) (pending : e'.pending = e.pending)
    (arrived : e'.arrived = e.arrived) (passed : e'.passed = e.passed)
    (reported : e'.reported = e.reported) : Kept ports e' where
  incarnations := incarnations
  apart := sockets ▸ kept.apart
  batch := left ▸ kept.batch
  inside := by rw [left, sockets]; exact kept.inside
  fine fd opened := (kept.fine fd (sockets ▸ opened)).keep (by rw [unread]) (by rw [pending])
    (by rw [arrived]) (by rw [passed]) (by rw [reported]) (by rw [left])
  backlog := by rw [left, pending, backlog]; exact kept.backlog

/-- Something arrives while the service does nothing. -/
theorem arrival (kept : Kept ports e) {e' : Edge Fd Addr} (server : e'.server = e.server)
    (fine : ∀ fd, (e.server.sockets fd).isSome → fd ≠ ports.listenfd → Fine e fd → Fine e' fd)
    (backlog : e'.pending ports.listenfd = false →
      e.pending ports.listenfd = false ∧ (e.backlog = [] → e'.backlog = [])) :
    Kept ports e' where
  incarnations := server ▸ kept.incarnations
  apart := server ▸ kept.apart
  batch := server ▸ kept.batch
  inside := server ▸ kept.inside
  fine fd opened := by
    rw [server] at opened
    refine fine fd opened (fun same => ?_) (kept.fine fd opened)
    rw [same, kept.apart.2] at opened
    cases opened
  backlog notLeft off := by
    rw [server] at notLeft
    exact (backlog off).2 (kept.backlog notLeft (backlog off).1)

/-- The loop has handled the event at the head of its batch. -/
theorem advance (kept : Kept ports e) {fd : Fd} {fds : List Fd}
    (loop : e.server.loop = .handling (fd :: fds)) {e' : Edge Fd Addr}
    (incarnations : e'.server.Incarnations) (left : e'.server.loop.left = fds)
    (sockets : ∀ other ≠ fd, e'.server.sockets other = e.server.sockets other)
    (opened : (e'.server.sockets fd).isSome → (e.server.sockets fd).isSome ∧ Fine e' fd)
    (unread : ∀ other ≠ fd, e'.unread other = e.unread other)
    (pending : ∀ other ≠ fd, e'.pending other = e.pending other)
    (arrived : e'.arrived = e.arrived) (passed : ∀ other ≠ fd, e'.passed other = e.passed other)
    (reported : e'.reported = e.reported) (backlog : e'.backlog = e.backlog)
    (listening : fd = ports.listenfd → e'.pending fd = false → e'.backlog = []) :
    Kept ports e' := by
  have batch : (fd :: fds).Nodup := by simpa [loop, Loop.left] using kept.batch
  have inside : ∀ other ∈ fd :: fds, other = ports.efd ∨ other = ports.listenfd ∨
      (e.server.sockets other).isSome := by simpa [loop, Loop.left] using kept.inside
  have closed : ∀ port, e.server.sockets port = none → e'.server.sockets port = none := by
    intro port free
    by_cases here : port = fd
    · subst here
      by_contra open_
      have was := (opened (Option.isSome_iff_ne_none.mpr open_)).1
      simp [free] at was
    · rw [sockets port here, free]
  refine ⟨incarnations, ⟨closed _ kept.apart.1, closed _ kept.apart.2⟩,
    left ▸ (List.nodup_cons.mp batch).2, ?_, ?_, ?_⟩
  · intro other member
    rw [left] at member
    have elsewhere : other ≠ fd := fun same => (List.nodup_cons.mp batch).1 (same ▸ member)
    rw [sockets other elsewhere]
    exact inside other (List.mem_cons_of_mem _ member)
  · intro other open_
    by_cases here : other = fd
    · subst here
      exact (opened open_).2
    · refine (kept.fine other (sockets other here ▸ open_)).keep (unread other here)
        (pending other here) (by rw [arrived]) (passed other here) (by rw [reported]) ?_
      rw [left, loop]
      simp [Loop.left, here]
  · intro notLeft off
    by_cases here : fd = ports.listenfd
    · exact listening here (here ▸ off)
    · rw [backlog]
      rw [pending _ (Ne.symm here)] at off
      rw [left] at notLeft
      exact kept.backlog (by simpa [loop, Loop.left, Ne.symm here] using notLeft) off

/-- The events of a descriptor stay unless it is closed. -/
theorem pending_of_same {port : Ports Fd} (label : Label Fd Addr) {fd : Fd}
    (same : (e.server.next label).sockets fd = e.server.sockets fd) :
    (e.next port (.server label)).pending fd = (e.take label).pending fd := by
  cases socket : e.server.sockets fd <;> simp [next, same, socket]

/-- `epoll.wait` returns events of descriptors that have new input. -/
theorem waited (kept : Kept ports e) {fds : List Fd}
    (taken : Step ports.toPorts e (.server (.wait (some fds)))
      (e.next ports.toPorts (.server (.wait (some fds))))) :
    Kept ports (e.next ports.toPorts (.server (.wait (some fds)))) := by
  obtain ⟨waiting, distinct, known⟩ := taken.1.1
  have empty : e.server.loop.left = [] := by simp [waiting, Loop.left]
  have pending : ∀ fd, (e.next ports.toPorts (.server (.wait (some fds)))).pending fd =
      if fd ∈ fds then false else e.pending fd := fun fd => pending_of_same _ rfl
  refine ⟨kept.incarnations.step (show Server.Step ports.toPorts _ _ _ from ⟨taken.1.1, rfl⟩),
    kept.apart, distinct,
    known, fun fd opened => ?_, fun notLeft off => ?_⟩
  · have fine := kept.fine fd opened
    by_cases inBatch : fd ∈ fds
    · refine ⟨fine.split, ?_, fun notLeft => absurd inBatch notLeft, fun _ _ => ?_,
        fun notLeft => absurd inBatch notLeft⟩
      · simp [next, take, inBatch]
      · simp [next, take, inBatch]
    · exact fine.keep rfl (by rw [pending, if_neg inBatch]) rfl rfl (by simp [next, take, inBatch])
        (iff_of_false inBatch (by simp [empty]))
  · have apart : ports.listenfd ∉ fds := notLeft
    rw [pending, if_neg apart] at off
    exact kept.backlog (by simp [empty]) off

/-- A new connection is registered with what has arrived on it already. -/
theorem accepted (kept : Kept ports e) {fd : Fd} {addr : Addr}
    (taken : Step ports.toPorts e (.server (.accepted fd addr))
      (e.next ports.toPorts (.server (.accepted fd addr))))
    (fits : e.Fits ports.toPorts (.server (.accepted fd addr))) :
    Kept ports (e.next ports.toPorts (.server (.accepted fd addr))) := by
  have incarnations := kept.incarnations.step
    (show Server.Step ports.toPorts _ _ _ from ⟨taken.1.1, rfl⟩)
  obtain ⟨⟨event, -, notWakeup, notListening, vacant⟩, waits⟩ := taken.1
  obtain ⟨fds, loop⟩ := Loop.handling_of_event event
  obtain ⟨caller, rest, backlog⟩ := List.exists_cons_of_ne_nil waits
  have batch : (ports.listenfd :: fds).Nodup := by simpa [loop, Loop.left] using kept.batch
  have inside : ∀ other ∈ ports.listenfd :: fds, other = ports.efd ∨ other = ports.listenfd ∨
      (e.server.sockets other).isSome := by simpa [loop, Loop.left] using kept.inside
  have later : fd ∉ fds := by
    intro member
    rcases inside fd (List.mem_cons_of_mem _ member) with same | same | opened
    · exact notWakeup same
    · exact notListening same
    · simp [vacant] at opened
  have sockets : (e.server.next (.accepted fd addr)).sockets =
      Function.update e.server.sockets fd (some e.server.accepts) := by
    simp [Server.next, loop]
  have left : (e.server.next (.accepted fd addr)).loop.left = fds := by
    simp [Server.next, loop, Loop.left]
  have pending : ∀ other ≠ fd, (e.next ports.toPorts (.server (.accepted fd addr))).pending other =
      e.pending other := by
    intro other apart
    rw [pending_of_same _ (by simp [sockets, apart])]
    simp [take, backlog, apart]
  refine ⟨incarnations, ?_, ?_, ?_, ?_, ?_⟩
  · simp [next, sockets, Ne.symm notWakeup, Ne.symm notListening, kept.apart]
  · simp [next, left, (List.nodup_cons.mp batch).2]
  · intro other member
    have member : other ∈ fds := left ▸ member
    have apart : other ≠ fd := fun same => later (same ▸ member)
    simpa [next, sockets, apart] using inside other (List.mem_cons_of_mem _ member)
  · intro other opened
    by_cases here : other = fd
    · subst here
      have unread : (e.next ports.toPorts (.server (.accepted other addr))).unread other =
          caller.bytes := by simp [next, take, backlog]
      have arrived : (e.next ports.toPorts (.server (.accepted other addr))).arrived other =
          caller.bytes := by simp [next, take, backlog]
      have passed : (e.next ports.toPorts (.server (.accepted other addr))).passed other = [] := by
        simp [next, take, backlog]
      have reported : (e.next ports.toPorts (.server (.accepted other addr))).reported other = 0 :=
        by simp [next, take, backlog]
      have on : (e.next ports.toPorts (.server (.accepted other addr))).pending other =
          (!caller.bytes.isEmpty || caller.ended) := by simp [next, take, backlog, vacant]
      refine ⟨by rw [arrived, passed, unread, List.nil_append],
        by rw [reported]; exact Nat.zero_le _,
        fun _ off => ?_, fun member => absurd (left ▸ member) later,
        fun _ => by rw [reported]; exact Nat.zero_le _⟩
      rw [on] at off
      rw [unread]
      simpa using (Bool.or_eq_false_iff.mp off).1
    · have was : (e.server.sockets other).isSome := by simpa [next, sockets, here] using opened
      have notHead : other ≠ ports.listenfd := by
        intro same
        rw [same, kept.apart.2] at was
        cases was
      refine (kept.fine other was).keep
        (by simp [next, take, backlog, here]) (pending other here)
        (by simp [next, take, backlog, here]) (by simp [next, take, backlog, here])
        (by simp [next, take, backlog, here]) ?_
      rw [show (e.next ports.toPorts (.server (.accepted fd addr))).server.loop.left = fds from
        left, loop]
      simp [Loop.left, notHead]
  · intro _ off
    rw [pending _ (Ne.symm notListening)] at off
    rcases fits with one | on
    · have none : rest = [] := by simpa [backlog] using one
      simp [next, take, backlog, none]
    · simp [on] at off

/-- One call of `recv`, whatever the gate makes of the bytes. -/
theorem received (kept : Kept ports e) {message : Bytes}
    (taken : Step ports.toPorts e (.server (.received message))
      (e.next ports.toPorts (.server (.received message))))
    (fits : e.Fits ports.toPorts (.server (.received message))) :
    Kept ports (e.next ports.toPorts (.server (.received message))) := by
  have incarnations := kept.incarnations.step
    (show Server.Step ports.toPorts _ _ _ from ⟨taken.1.1, rfl⟩)
  obtain ⟨fd, fds, n, c, loop, socket, entry, -, result⟩ :=
    kept.incarnations.of_received taken.1.1
  obtain ⟨⟨-, -, fd', event', -, notListening, opened⟩, fd'', event'', chunk⟩ := taken.1
  have event : e.server.loop.event = some fd := by rw [loop]; rfl
  obtain rfl : fd = fd' := Option.some.inj (event.symm.trans event')
  obtain rfl : fd = fd'' := Option.some.inj (event.symm.trans event'')
  have batch : (fd :: fds).Nodup := by simpa [loop, Loop.left] using kept.batch
  have outcome := e.server.onData_handled fd message fds entry
  rw [← result] at outcome
  obtain ⟨left, elsewhere, here⟩ := outcome.kernel
  refine kept.advance loop incarnations left elsewhere (fun open_ => ⟨opened, ?_⟩)
    (fun other apart => by simp [next, take, event, apart])
    (fun other apart => by rw [pending_of_same _ (elsewhere other apart)]; simp [take, event])
    (by simp [next, take, event]) (fun other apart => by simp [next, take, event, apart])
    (by simp [next, take, event]) (by simp [next, take, event])
    (fun same => absurd same notListening)
  have bound : e.reported fd ≤ (e.passed fd).length + 1024 := by
    rcases fits fd event with bound | ⟨d, entry', authed, other⟩
    · exact bound
    · have open_ : ((e.server.next (.received message)).sockets fd).isSome := open_
      rw [result, Server.onData_of_accepted _ _ _ _ entry' authed, if_neg other] at open_
      simp [Server.close] at open_
  refine (kept.fine fd opened).read (by simp [loop, Loop.left]) ?_ bound ?_ ?_ ?_ ?_ ?_
  · exact fun member => (List.nodup_cons.mp batch).1 (left ▸ member)
  · simp [next, take, event, chunk, List.drop_eq_drop_iff]
  · rw [pending_of_same _ (here open_)]
    simp [take, event]
  · simp [next, take, event]
  · simp [next, take, event, chunk]
  · simp [next, take, event]

/-- `recv` has found nothing. -/
theorem recvFailed (kept : Kept ports e) {closed : Bool}
    (taken : Step ports.toPorts e (.server (.recvFailed closed))
      (e.next ports.toPorts (.server (.recvFailed closed)))) :
    Kept ports (e.next ports.toPorts (.server (.recvFailed closed))) := by
  have incarnations := kept.incarnations.step
    (show Server.Step ports.toPorts _ _ _ from ⟨taken.1.1, rfl⟩)
  obtain ⟨⟨fd, event, -, notListening, -⟩, fd', event', empty, -⟩ := taken.1
  obtain rfl : fd = fd' := Option.some.inj (event.symm.trans event')
  have event : e.server.loop.event = some fd := event
  obtain ⟨fds, loop⟩ := Loop.handling_of_event event
  have batch : (fd :: fds).Nodup := by simpa [loop, Loop.left] using kept.batch
  have left : (e.server.next (.recvFailed closed)).loop.left = fds := by
    cases closed <;> simp [Server.next, loop, Loop.left, Server.close]
  have elsewhere : ∀ other ≠ fd,
      (e.server.next (.recvFailed closed)).sockets other = e.server.sockets other := by
    intro other apart
    cases closed <;> simp [Server.next, loop, Server.close, apart]
  have here : ((e.server.next (.recvFailed closed)).sockets fd).isSome →
      (e.server.next (.recvFailed closed)).sockets fd = e.server.sockets fd := by
    cases closed <;> simp [Server.next, loop, Server.close]
  refine kept.advance loop incarnations left elsewhere (fun open_ => ?_) (fun _ _ => rfl)
    (fun other apart => by rw [pending_of_same _ (elsewhere other apart)]; rfl) rfl
    (fun _ _ => rfl) rfl rfl (fun same => absurd same notListening)
  have opened : (e.server.sockets fd).isSome := here open_ ▸ open_
  have fine := kept.fine fd opened
  have all : e.arrived fd = e.passed fd := by rw [fine.split, empty, List.append_nil]
  exact ⟨opened, fine.split, fine.reported, fun _ _ => empty,
    fun member => absurd (left ▸ member) (List.nodup_cons.mp batch).1,
    fun _ => all ▸ fine.reported⟩

theorem step (kept : Kept ports e) {event : Event Fd Addr} {e' : Edge Fd Addr}
    (fits : e.Fits ports.toPorts event) (taken : Step ports.toPorts e event e') :
    e'.server.loop = .raised ∨ Kept ports e' := by
  obtain ⟨enabled, rfl⟩ := taken
  cases event with
  | server label =>
      have incarnations := kept.incarnations.step
        (show Server.Step ports.toPorts _ _ _ from ⟨enabled.1, rfl⟩)
      have idle : (e.server.next label).sockets = e.server.sockets →
          (e.server.next label).loop.left = e.server.loop.left → e.take label = e →
          Kept ports (e.next ports.toPorts (.server label)) := by
        intro sockets left same
        refine kept.carry incarnations sockets left ?_ ?_ ?_ ?_ ?_ ?_
        · simp [next, same]
        · simp [next, same]
        · funext fd
          rw [pending_of_same label (by rw [sockets]), same]
        all_goals simp [next, same]
      cases label with
      | wait events =>
          cases events with
          | none => exact .inl rfl
          | some fds => exact .inr (kept.waited ⟨enabled, rfl⟩)
      | eread =>
          obtain ⟨fds, loop⟩ := Loop.handling_of_event enabled.1
          have sockets : (e.server.next .eread).sockets = e.server.sockets := by
            simp [Server.next, loop]
          refine .inr (kept.advance loop incarnations (by simp [next, Server.next, loop, Loop.left])
            (fun other _ => congrFun sockets other) (fun opened => ?_) (fun _ _ => rfl)
            (fun other _ => by rw [pending_of_same _ (congrFun sockets other)]; rfl) rfl
            (fun _ _ => rfl) rfl rfl (fun same => absurd same ports.distinct))
          have opened : ((e.server.next .eread).sockets ports.efd).isSome := opened
          rw [sockets, kept.apart.1] at opened
          cases opened
      | accepted fd addr => exact .inr (kept.accepted ⟨enabled, rfl⟩ fits)
      | acceptFailed =>
          obtain ⟨fds, loop⟩ := Loop.handling_of_event enabled.1.1
          have sockets : (e.server.next .acceptFailed).sockets = e.server.sockets := by
            simp [Server.next, loop]
          have same : ∀ fd, (e.next ports.toPorts (.server .acceptFailed)).pending fd =
              e.pending fd := fun fd => by rw [pending_of_same _ (congrFun sockets fd)]; rfl
          refine .inr (kept.advance loop incarnations (by simp [next, Server.next, loop, Loop.left])
            (fun other _ => congrFun sockets other) (fun opened => ?_) (fun _ _ => rfl)
            (fun other _ => same other) rfl (fun _ _ => rfl) rfl rfl (fun _ off => ?_))
          · have opened : ((e.server.next .acceptFailed).sockets ports.listenfd).isSome := opened
            rw [sockets, kept.apart.2] at opened
            cases opened
          · rcases fits with none_waits | on
            · exact none_waits
            · rw [same, on] at off
              cases off
      | received message => exact .inr (kept.received ⟨enabled, rfl⟩ fits)
      | recvFailed closed => exact .inr (kept.recvFailed ⟨enabled, rfl⟩)
      | loggedIn answers =>
          obtain ⟨fd, pid, fds, loop⟩ := Loop.login_of_loggingIn enabled.1
          by_cases passed : playerLogin e.server.players pid answers = true
          · exact .inr (idle (by simp [Server.next, loop, passed, Server.send])
              (by simp [Server.next, loop, passed, Loop.left, Server.send]) rfl)
          · exact .inl (by simp [next, Server.next, loop, passed])
      | slept =>
          have loop : e.server.loop = .handling [] := enabled.1
          exact .inr (idle rfl (by simp [Server.next, loop, Loop.left]) rfl)
      | start =>
          refine .inr (idle ?_ ?_ rfl)
          · simp only [Server.next]
            split <;> rfl
          · simp only [Server.next]
            split <;> rfl
      | answer job resp =>
          cases resp with
          | some message => exact .inr (idle rfl rfl rfl)
          | none => exact .inr (idle rfl rfl rfl)
  | connect =>
      refine .inr (kept.arrival rfl (fun fd _ client fine => ?_) (by simp [next]))
      exact fine.keep rfl (by simp [next, client]) rfl rfl rfl Iff.rfl
  | early index bytes | earlyEnd index =>
      refine .inr (kept.arrival rfl (fun fd _ _ fine => fine.keep rfl rfl rfl rfl rfl Iff.rfl) ?_)
      exact fun off => ⟨off, fun none_waits => by simp [next, none_waits]⟩
  | bytes fd bytes =>
      have client : ports.listenfd ≠ fd := by
        rintro rfl
        simp [Enabled, kept.apart.2] at enabled
      refine .inr (kept.arrival rfl (fun other _ _ fine => ?_) (fun off => ?_))
      · by_cases here : other = fd
        · subst here
          exact fine.arrive bytes (by simp [next]) (by simp [next]) (by simp [next]) rfl rfl rfl
        · exact fine.keep (by simp [next, here]) (by simp [next, here]) (by simp [next, here])
            rfl rfl Iff.rfl
      · exact ⟨by simpa [next, client] using off, id⟩
  | ends fd =>
      have client : ports.listenfd ≠ fd := by
        rintro rfl
        simp [Enabled, kept.apart.2] at enabled
      refine .inr (kept.arrival rfl (fun other _ _ fine => ?_) (fun off => ?_))
      · by_cases here : other = fd
        · subst here
          exact fine.arrive [] (by simp [next]) (by simp [next]) (by simp [next]) rfl rfl rfl
        · exact fine.keep rfl (by simp [next, here]) rfl rfl rfl Iff.rfl
      · exact ⟨by simpa [next, client] using off, id⟩
  | ring =>
      refine .inr (kept.arrival rfl (fun fd opened _ fine => ?_) (fun off => ?_))
      · have client : fd ≠ ports.efd := by
          rintro rfl
          simp [kept.apart.1] at opened
        exact fine.keep rfl (by simp [next, client]) rfl rfl rfl Iff.rfl
      · exact ⟨by simpa [next, ports.distinct.symm] using off, id⟩

/-- A call that takes less than its event has reported leaves the rest, and the event is gone. -/
theorem neglected (kept : Kept ports e) {label : Label Fd Addr}
    (taken : Step ports.toPorts e (.server label) (e.next ports.toPorts (.server label)))
    (short : ¬ e.Fits ports.toPorts (.server label)) :
    (∃ fd, ((e.server.next label).sockets fd).isSome ∧
      ((e.take label).passed fd).length < (e.take label).reported fd) ∨
    ((e.take label).backlog ≠ [] ∧
      (e.next ports.toPorts (.server label)).pending ports.listenfd = false) := by
  cases label with
  | accepted fd addr =>
      obtain ⟨⟨event, -, -, notListening, -⟩, -⟩ := taken.1
      obtain ⟨fds, loop⟩ := Loop.handling_of_event event
      simp only [Fits, not_or, Nat.not_le, Bool.not_eq_true] at short
      obtain ⟨many, off⟩ := short
      match waiting : e.backlog with
      | [] => simp [waiting] at many
      | caller :: rest =>
          refine .inr ⟨?_, ?_⟩
          · rintro none_left
            simp [take, waiting] at none_left
            simp [waiting, none_left] at many
          · rw [pending_of_same _ (by simp [Server.next, loop, Ne.symm notListening])]
            simp [take, waiting, Ne.symm notListening, off]
  | acceptFailed =>
      obtain ⟨fds, loop⟩ := Loop.handling_of_event taken.1.1.1
      simp only [Fits, not_or, Bool.not_eq_true] at short
      refine .inr ⟨short.1, ?_⟩
      rw [pending_of_same _ (by simp [Server.next, loop])]
      exact short.2
  | received message =>
      obtain ⟨fd, fds, n, c, loop, socket, entry, -, result⟩ :=
        kept.incarnations.of_received taken.1.1
      have size := taken.1.1.2.1
      have opened : (e.server.sockets fd).isSome := by rw [socket]; rfl
      have event : e.server.loop.event = some fd := by rw [loop]; rfl
      simp only [Fits, event, Option.mem_def, Option.some.injEq, forall_eq', entry,
        exists_eq_left', not_or, Nat.not_le, not_and, not_not] at short
      obtain ⟨far, token⟩ := short
      refine .inl ⟨fd, ?_, ?_⟩
      · rw [result]
        cases authed : c.authed with
        | false =>
            rw [Server.onData_of_accepted _ _ _ _ entry authed, if_pos (token authed)]
            exact opened
        | true =>
            cases login : c.login with
            | false =>
                rw [Server.onData_of_authed _ _ _ _ entry authed login]
                exact opened
            | true =>
                rw [Server.onData_of_login _ _ _ _ entry authed login]
                exact opened
      · simp only [take, event, Function.update_self, List.length_append]
        omega
  | _ => exact absurd trivial short

end Kept

/-- A loop that an error has ended handles nothing more. -/
theorem raised_step {ports : Ports Fd} {e e' : Edge Fd Addr} {event : Event Fd Addr}
    (raised : e.server.loop = .raised) (taken : Step ports e event e') :
    e'.server.loop = .raised := by
  obtain ⟨enabled, rfl⟩ := taken
  cases event with
  | server label =>
      have allowed := enabled.1
      have still : (e.server.next label).loop = e.server.loop := by
        cases label with
        | start | answer => exact Server.loop_of_other rfl
        | wait events => cases events <;> simp [Server.Enabled, raised] at allowed
        | _ => simp [Server.Enabled, raised, Loop.event, Loop.loggingIn] at allowed
      exact still.trans raised
  | _ => exact raised

/-! ## Runs -/

/--
In every run of the service whose calls take what their events report, whatever
arrives and when, no input is left unread while the loop is in `epoll.wait`: an
event is pending for it, and all bytes from before the last event of a connection
have been passed to `on_data`.
-/
theorem drained_of_fits {ports : Opened Fd} {steps : List (Edge Fd Addr × Event Fd Addr)}
    {e : Edge Fd Addr} (run : Lib.Run (Step ports.toPorts) init steps e)
    (fits : ∀ taken ∈ steps, taken.1.Fits ports.toPorts taken.2) :
    ∀ v ∈ Lib.visited steps e, v.server.loop = .waiting → v.Drained ports.toPorts := by
  have alive : ∀ v ∈ Lib.visited steps e, v.server.loop = .raised ∨ Kept ports v := by
    refine run.invariant_visited (fun v event => v.Fits ports.toPorts event) _ (.inr .init) ?_ fits
    rintro v event v' (raised | kept) fits taken
    · exact .inl (raised_step raised taken)
    · exact kept.step fits taken
  intro v member waiting
  rcases alive v member with raised | kept
  · simp [waiting] at raised
  · exact kept.drained waiting

/-- Two clients connect one after the other and send the token. -/
def tokenRun : List (Event Nat Unit) :=
  [.connect, .server (.wait (some [4])), .connect, .early 0 authToken, .server (.accepted 7 ()),
    .ring, .server .slept, .server (.wait (some [3, 7, 4])), .server .eread,
    .server (.received authToken), .server (.accepted 8 ()), .server .slept, .bytes 8 authToken,
    .server (.wait (some [8])), .server (.received authToken), .server .slept]

/-- Two clients connect before the loop has accepted the first one. -/
def crowdRun : List (Event Nat Unit) :=
  [.connect, .connect, .server (.wait (some [4])), .server (.accepted 7 ()), .server .slept]

/-- Descriptors for the runs. -/
def opened : Opened Nat := ⟨⟨3, 4⟩, by decide⟩

theorem tokenRun_legal :
    Lib.Legal (Enabled opened.toPorts) (next opened.toPorts) (init : Edge Nat Unit) tokenRun := by
  decide

theorem drained_of_tokenRun :
    ∃ (steps : List (Edge Nat Unit × Event Nat Unit)) (e : Edge Nat Unit),
      Lib.Run (Step opened.toPorts) init steps e ∧
        ∀ v ∈ Lib.visited steps e, v.server.loop = .waiting → v.Drained opened.toPorts := by
  have fits : Lib.Legal (Fits opened.toPorts) (next opened.toPorts) (init : Edge Nat Unit)
      tokenRun := by
    decide
  have run := Lib.Run.of_legal tokenRun_legal
  exact ⟨_, _, run, drained_of_fits run ((Lib.legal_iff _ _).mp fits)⟩

theorem crowdRun_legal :
    Lib.Legal (Enabled opened.toPorts) (next opened.toPorts) (init : Edge Nat Unit) crowdRun := by
  decide

/-- The second connection waits, and no event will come for it. -/
theorem connection_left :
    ∃ (steps : List (Edge Nat Unit × Event Nat Unit)) (e : Edge Nat Unit),
      Lib.Run (Step opened.toPorts) init steps e ∧ e.server.loop = .waiting ∧
        e.backlog ≠ [] ∧ e.pending opened.listenfd = false ∧ ¬ e.Drained opened.toPorts := by
  have waits : (crowdRun.foldl (next opened.toPorts) (init : Edge Nat Unit)).backlog ≠ [] := by
    decide
  have off : (crowdRun.foldl (next opened.toPorts) (init : Edge Nat Unit)).pending
      opened.listenfd = false := by
    decide
  refine ⟨_, _, Lib.Run.of_legal crowdRun_legal, by decide, waits, off, fun drained => ?_⟩
  have on := drained.backlog waits
  rw [off] at on
  cases on

end Edge

end WindLtask.Gate
