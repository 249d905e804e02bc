import WindLtask.Gate.Network

/-!
# Incarnations of a file descriptor

What every step of the network service keeps: an open descriptor belongs to one
accept, the table `connection` holds the entry which that accept made, and a
coroutine that waits for a worker was forked for a connection that is still open
on its descriptor or has been closed.
-/

set_option linter.unusedSectionVars false

namespace WindLtask.Gate

variable {Fd Addr : Type} [DecidableEq Fd]

namespace Server

/-! ## What a chunk of data does -/

/-- What `on_data` does to a connection that has just been accepted. -/
theorem onData_of_accepted (s : Server Fd Addr) (fd : Fd) (message : Bytes) (fds : List Fd)
    {c : Conn Addr} (known : s.connection fd = some c) (authed : c.authed = false) :
    s.onData fd message fds =
      if message = authToken then
        ({ s with
            connection := Function.update s.connection fd (some { c with authed := true })
            loop := .handling fds }.send fd authenticated none)
      else
        ({ s with
            connection := Function.update s.connection fd none
            loop := .handling fds }.close fd) := by
  by_cases token : message = authToken <;>
    simp [onData, Gate.onData, known, authed, token]

/-- What `on_data` does to an authenticated connection. -/
theorem onData_of_authed (s : Server Fd Addr) (fd : Fd) (message : Bytes) (fds : List Fd)
    {c : Conn Addr} (known : s.connection fd = some c) (authed : c.authed = true)
    (login : c.login = false) :
    s.onData fd message fds =
      { s with
        connection := Function.update s.connection fd
          (some { c with pid := some message.dropLast, login := true })
        loop := .login fd message.dropLast fds } := by
  simp [onData, Gate.onData, known, authed, login]

/-- What `on_data` does to a connection that has logged in. -/
theorem onData_of_login (s : Server Fd Addr) (fd : Fd) (message : Bytes) (fds : List Fd)
    {c : Conn Addr} (known : s.connection fd = some c) (authed : c.authed = true)
    (login : c.login = true) :
    s.onData fd message fds =
      { s with
        connection := Function.update s.connection fd
          (some { c with last := (split (c.last ++ message)).1 })
        loop := .handling fds
        forked := s.forked ++ (split (c.last ++ message)).2.map fun pack =>
          ⟨fd, c.pid, pack, c.accept⟩ } := by
  simp [onData, Gate.onData, known, authed, login]

/-- The four outcomes of `on_data` on a connection that the gate knows. -/
inductive Handled (s : Server Fd Addr) (fd : Fd) (fds : List Fd) (c : Conn Addr) :
    Server Fd Addr → Prop where
  | welcome :
      Handled s fd fds c
        ({ s with
            connection := Function.update s.connection fd (some { c with authed := true })
            loop := .handling fds }.send fd authenticated none)
  | shutdown :
      Handled s fd fds c
        ({ s with
            connection := Function.update s.connection fd none
            loop := .handling fds }.close fd)
  | login (pid : Bytes) :
      Handled s fd fds c
        { s with
          connection := Function.update s.connection fd
            (some { c with pid := some pid, login := true })
          loop := .login fd pid fds }
  | requests (last : Bytes) (packs : List Bytes) :
      Handled s fd fds c
        { s with
          connection := Function.update s.connection fd (some { c with last := last })
          loop := .handling fds
          forked := s.forked ++ packs.map fun pack => ⟨fd, c.pid, pack, c.accept⟩ }

theorem onData_handled (s : Server Fd Addr) (fd : Fd) (message : Bytes) (fds : List Fd)
    {c : Conn Addr} (known : s.connection fd = some c) :
    Handled s fd fds c (s.onData fd message fds) := by
  cases authed : c.authed with
  | false =>
      rw [onData_of_accepted s fd message fds known authed]
      split
      · exact .welcome
      · exact .shutdown
  | true =>
      cases login : c.login with
      | false =>
          rw [onData_of_authed s fd message fds known authed login]
          exact .login message.dropLast
      | true =>
          rw [onData_of_login s fd message fds known authed login]
          exact .requests (split (c.last ++ message)).1 (split (c.last ++ message)).2

/-! ## The invariant -/

/-- Which accept stands behind a descriptor, a connection and a coroutine. -/
structure Incarnations (s : Server Fd Addr) : Prop where
  made : ∀ fd n, s.sockets fd = some n → n < s.accepts
  past : ∀ n ∈ s.closed, n < s.accepts
  present : ∀ fd n, s.sockets fd = some n → n ∉ s.closed
  alone : ∀ fd fd' n, s.sockets fd = some n → s.sockets fd' = some n → fd = fd'
  known : ∀ fd n, s.sockets fd = some n → ∃ c, s.connection fd = some c ∧ c.accept = n
  asked : ∀ job, job ∈ s.forked ∨ job ∈ s.calls →
    s.sockets job.fd = some job.accept ∨ job.accept ∈ s.closed

namespace Incarnations

variable {s : Server Fd Addr}

theorem start : (init : Server Fd Addr).Incarnations where
  made := by simp [init]
  past := by simp [init]
  present := by simp [init]
  alone := by simp [init]
  known := by simp [init]
  asked := by simp [init]

/-- The invariant reads neither the place of the loop nor the lists of what has been sent. -/
theorem carry (inv : s.Incarnations) (t : Server Fd Addr)
    (connection : t.connection = s.connection) (sockets : t.sockets = s.sockets)
    (accepts : t.accepts = s.accepts) (closed : t.closed = s.closed)
    (jobs : ∀ job, job ∈ t.forked ∨ job ∈ t.calls → job ∈ s.forked ∨ job ∈ s.calls) :
    t.Incarnations where
  made := by rw [sockets, accepts]; exact inv.made
  past := by rw [closed, accepts]; exact inv.past
  present := by rw [sockets, closed]; exact inv.present
  alone := by rw [sockets]; exact inv.alone
  known := by rw [sockets, connection]; exact inv.known
  asked := by
    rw [sockets, closed]
    intro job member
    exact inv.asked job (jobs job member)

/-- Changing the entry of a connection keeps the accept behind it. -/
theorem reconnect (inv : s.Incarnations) {fd : Fd} {c : Conn Addr} (c' : Conn Addr)
    (entry : s.connection fd = some c) (same : c'.accept = c.accept) :
    { s with connection := Function.update s.connection fd (some c') }.Incarnations := by
  refine ⟨inv.made, inv.past, inv.present, inv.alone, ?_, inv.asked⟩
  intro fd' n socket
  obtain ⟨d, entry', accept⟩ := inv.known fd' n socket
  by_cases here : fd' = fd
  · subst here
    have equal : d = c := by simpa [entry] using entry'.symm
    exact ⟨c', by simp, by rw [same, ← equal, accept]⟩
  · exact ⟨d, by simpa [here] using entry', accept⟩

/-- Closing a descriptor moves its accept to the closed ones. -/
theorem close (inv : s.Incarnations) (fd : Fd) : (s.close fd).Incarnations := by
  have elsewhere : ∀ {fd' n}, Function.update s.sockets fd none fd' = some n →
      fd' ≠ fd ∧ s.sockets fd' = some n := by
    intro fd' n socket
    by_cases here : fd' = fd
    · simp [here] at socket
    · exact ⟨here, by simpa [here] using socket⟩
  constructor
  · intro fd' n socket
    exact inv.made fd' n (elsewhere socket).2
  · intro n member
    rcases List.mem_append.mp member with before | now
    · exact inv.past n before
    · exact inv.made fd n (by simpa using now)
  · intro fd' n socket member
    obtain ⟨apart, stays⟩ := elsewhere socket
    rcases List.mem_append.mp member with before | now
    · exact inv.present fd' n stays before
    · exact apart (inv.alone fd' fd n stays (by simpa using now))
  · intro fd₁ fd₂ n first second
    exact inv.alone fd₁ fd₂ n (elsewhere first).2 (elsewhere second).2
  · intro fd' n socket
    exact inv.known fd' n (elsewhere socket).2
  · intro job member
    rcases inv.asked job member with socket | gone
    · by_cases here : job.fd = fd
      · right
        rw [here] at socket
        exact List.mem_append_right _ (by simp [socket])
      · left
        simpa [Server.close, here] using socket
    · exact .inr (List.mem_append_left _ gone)

/-- Forgetting a descriptor and closing it, as `shutdown(fd)` does. -/
theorem shutdown (inv : s.Incarnations) (fd : Fd) :
    ({ s with connection := Function.update s.connection fd none }.close fd).Incarnations := by
  have closed := inv.close fd
  refine ⟨closed.made, closed.past, closed.present, closed.alone, ?_, closed.asked⟩
  intro fd' n socket
  by_cases here : fd' = fd
  · simp [Server.close, here] at socket
  · obtain ⟨c, entry, accept⟩ := closed.known fd' n socket
    exact ⟨c, by simpa [Server.close, here] using entry, accept⟩

/-- A new connection takes a descriptor that is not open and the next number. -/
theorem accepted (inv : s.Incarnations) {fd : Fd} (addr : Addr) (vacant : s.sockets fd = none) :
    { s with
      connection := onAccept s.connection fd addr s.accepts
      sockets := Function.update s.sockets fd (some s.accepts)
      accepts := s.accepts + 1 }.Incarnations := by
  have origin : ∀ {fd' n}, Function.update s.sockets fd (some s.accepts) fd' = some n →
      (fd' = fd ∧ n = s.accepts) ∨ (fd' ≠ fd ∧ s.sockets fd' = some n) := by
    intro fd' n socket
    by_cases here : fd' = fd
    · left
      exact ⟨here, by simpa [here] using socket.symm⟩
    · right
      exact ⟨here, by simpa [here] using socket⟩
  constructor
  · intro fd' n socket
    rcases origin socket with ⟨-, rfl⟩ | ⟨-, old⟩
    · exact Nat.lt_succ_self _
    · exact Nat.lt_succ_of_lt (inv.made fd' n old)
  · intro n member
    exact Nat.lt_succ_of_lt (inv.past n member)
  · intro fd' n socket member
    rcases origin socket with ⟨-, rfl⟩ | ⟨-, old⟩
    · exact Nat.lt_irrefl _ (inv.past _ member)
    · exact inv.present fd' n old member
  · intro fd₁ fd₂ n first second
    rcases origin first with ⟨at₁, rfl⟩ | ⟨-, old₁⟩
    · rcases origin second with ⟨at₂, -⟩ | ⟨-, old₂⟩
      · rw [at₁, at₂]
      · exact absurd (inv.made fd₂ _ old₂) (Nat.lt_irrefl _)
    · rcases origin second with ⟨-, rfl⟩ | ⟨-, old₂⟩
      · exact absurd (inv.made fd₁ _ old₁) (Nat.lt_irrefl _)
      · exact inv.alone fd₁ fd₂ n old₁ old₂
  · intro fd' n socket
    rcases origin socket with ⟨rfl, rfl⟩ | ⟨apart, old⟩
    · exact ⟨⟨addr, false, false, none, [], s.accepts⟩, by simp [onAccept], rfl⟩
    · obtain ⟨c, entry, accept⟩ := inv.known fd' n old
      exact ⟨c, by simpa [onAccept, apart] using entry, accept⟩
  · intro job member
    rcases inv.asked job member with socket | gone
    · have apart : job.fd ≠ fd := by
        intro here
        rw [here, vacant] at socket
        simp at socket
      left
      simpa [apart] using socket
    · exact .inr gone

/-- The coroutines that a chunk of data forks are for the connection that sent it. -/
theorem fork (inv : s.Incarnations) {fd : Fd} {c : Conn Addr} {n : Nat}
    (socket : s.sockets fd = some n) (entry : s.connection fd = some c) (pid : Option Bytes)
    (packs : List Bytes) :
    { s with
      forked := s.forked ++ packs.map fun pack =>
        (⟨fd, pid, pack, c.accept⟩ : Job Fd) }.Incarnations := by
  refine ⟨inv.made, inv.past, inv.present, inv.alone, inv.known, ?_⟩
  obtain ⟨d, entry', accept⟩ := inv.known fd n socket
  have same : c.accept = n := by
    have equal : d = c := by simpa [entry] using entry'.symm
    rw [← equal, accept]
  intro job member
  rcases member with queued | waits
  · rcases List.mem_append.mp queued with before | now
    · exact inv.asked job (.inl before)
    · obtain ⟨pack, -, rfl⟩ := List.mem_map.mp now
      left
      rw [same]
      exact socket
  · exact inv.asked job (.inr waits)

theorem handled (inv : s.Incarnations) {fd : Fd} {fds : List Fd} {c : Conn Addr} {n : Nat}
    {t : Server Fd Addr} (socket : s.sockets fd = some n) (entry : s.connection fd = some c)
    (outcome : Handled s fd fds c t) : t.Incarnations := by
  cases outcome with
  | welcome =>
      have kept := inv.reconnect { c with authed := true } entry rfl
      exact kept.carry _ rfl rfl rfl rfl fun _ member => member
  | shutdown =>
      exact (inv.shutdown fd).carry _ rfl rfl rfl rfl fun _ member => member
  | login pid =>
      have kept := inv.reconnect { c with pid := some pid, login := true } entry rfl
      exact kept.carry _ rfl rfl rfl rfl fun _ member => member
  | requests last packs =>
      have kept := inv.reconnect { c with last := last } entry rfl
      have forked := kept.fork (c := { c with last := last }) socket (by simp) c.pid packs
      exact forked.carry _ rfl rfl rfl rfl fun _ member => member

/-- What `recv` returns is handled for the entry of its connection. -/
theorem of_received (inv : s.Incarnations) {ports : Ports Fd} {message : Bytes}
    (enabled : s.Enabled ports (.received message)) :
    ∃ fd fds n c, s.loop = .handling (fd :: fds) ∧ s.sockets fd = some n ∧
      s.connection fd = some c ∧ c.accept = n ∧
      s.next (.received message) = s.onData fd message fds := by
  obtain ⟨-, -, fd, event, -, -, opened⟩ := enabled
  obtain ⟨fds, loop⟩ := Loop.handling_of_event event
  obtain ⟨n, socket⟩ := Option.isSome_iff_exists.mp opened
  obtain ⟨c, entry, accept⟩ := inv.known fd n socket
  exact ⟨fd, fds, n, c, loop, socket, entry, accept, by simp only [next, loop]⟩

/-- Every step of the network service keeps the invariant. -/
theorem step {ports : Ports Fd} (inv : s.Incarnations) {label : Label Fd Addr}
    {t : Server Fd Addr} (step : Step ports s label t) : t.Incarnations := by
  obtain ⟨enabled, rfl⟩ := step
  cases label with
  | wait events =>
      cases events <;> exact inv.carry _ rfl rfl rfl rfl fun _ member => member
  | eread =>
      obtain ⟨fds, loop⟩ := Loop.handling_of_event enabled
      simp only [next, loop]
      exact inv.carry _ rfl rfl rfl rfl fun _ member => member
  | acceptFailed =>
      obtain ⟨fds, loop⟩ := Loop.handling_of_event enabled.1
      simp only [next, loop]
      exact inv.carry _ rfl rfl rfl rfl fun _ member => member
  | accepted fd addr =>
      obtain ⟨event, -, -, -, vacant⟩ := enabled
      obtain ⟨fds, loop⟩ := Loop.handling_of_event event
      simp only [next, loop]
      exact (inv.accepted addr vacant).carry _ rfl rfl rfl rfl fun _ member => member
  | received message =>
      obtain ⟨fd, fds, n, c, -, socket, entry, -, result⟩ := inv.of_received enabled
      rw [result]
      exact inv.handled socket entry (s.onData_handled fd message fds entry)
  | recvFailed closed =>
      obtain ⟨fd, event, -⟩ := enabled
      obtain ⟨fds, loop⟩ := Loop.handling_of_event event
      have kept : { s with loop := .handling fds }.Incarnations :=
        inv.carry _ rfl rfl rfl rfl fun _ member => member
      simp only [next, loop]
      cases closed with
      | true => exact kept.close fd
      | false => exact kept
  | loggedIn answers =>
      obtain ⟨fd, pid, fds, loop⟩ := Loop.login_of_loggingIn enabled
      simp only [next, loop]
      split <;> exact inv.carry _ rfl rfl rfl rfl fun _ member => member
  | slept => exact inv.carry _ rfl rfl rfl rfl fun _ member => member
  | start =>
      cases forked : s.forked with
      | nil => exact absurd forked enabled.2
      | cons job rest =>
          simp only [next, forked]
          refine inv.carry _ rfl rfl rfl rfl ?_
          rintro other (queued | waits)
          · exact .inl (by simp [forked, queued])
          · rcases List.mem_append.mp waits with before | now
            · exact .inr before
            · exact .inl (by simp [forked, List.mem_singleton.mp now])
  | answer job resp =>
      have jobs : ∀ other, other ∈ s.forked ∨ other ∈ s.calls.erase job →
          other ∈ s.forked ∨ other ∈ s.calls :=
        fun other member => member.imp id List.mem_of_mem_erase
      cases resp with
      | some message => exact inv.carry _ rfl rfl rfl rfl jobs
      | none => exact inv.carry _ rfl rfl rfl rfl jobs

end Incarnations

end Server

end WindLtask.Gate
