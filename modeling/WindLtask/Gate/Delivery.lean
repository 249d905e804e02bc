import WindLtask.Gate.Incarnations

/-!
# Delivery of responses

Where the answers of the workers go.  The coroutine that asked kept the number of
the descriptor, so its answer reaches whoever is behind that number when it
arrives.
-/

set_option linter.unusedSectionVars false

namespace WindLtask.Gate

variable {Fd Addr : Type} [DecidableEq Fd]

namespace Server

/-- Every answer has been sent while the connection that asked was open on the descriptor. -/
def Delivered (s : Server Fd Addr) : Prop :=
  ∀ sent ∈ s.sent, ∀ n, sent.asked = some n → sent.reached = some n

/-- A worker does not answer for a connection that has been closed in the meantime. -/
def Awaited (s : Server Fd Addr) : Label Fd Addr → Prop
  | .answer job (some _) => job.accept ∉ s.closed
  | _ => True

theorem send_sent (s : Server Fd Addr) (fd : Fd) (message : Bytes) (asked : Option Nat) :
    (s.send fd message asked).sent = s.sent ++ [⟨fd, message, s.sockets fd, asked⟩] :=
  rfl

theorem Delivered.send {s : Server Fd Addr} (delivered : s.Delivered) (fd : Fd)
    (message : Bytes) {asked : Option Nat}
    (there : ∀ n, asked = some n → s.sockets fd = some n) :
    (s.send fd message asked).Delivered := by
  intro sent member n same
  rw [send_sent] at member
  rcases List.mem_append.mp member with before | now
  · exact delivered sent before n same
  · cases List.mem_singleton.mp now
    exact there n same

theorem Delivered.onData {s : Server Fd Addr} (delivered : s.Delivered) {fd : Fd}
    {fds : List Fd} {c : Conn Addr} {t : Server Fd Addr} (outcome : Handled s fd fds c t) :
    t.Delivered := by
  cases outcome with
  | welcome =>
      refine Delivered.send ?_ fd authenticated (by simp)
      exact delivered
  | shutdown | login | requests => exact delivered

/-- A step whose answer, if it is one, is awaited sends no answer astray. -/
theorem Delivered.step {s t : Server Fd Addr} {ports : Ports Fd} (delivered : s.Delivered)
    (inv : s.Incarnations) {label : Label Fd Addr} (awaited : s.Awaited label)
    (step : Step ports s label t) : t.Delivered := by
  obtain ⟨enabled, rfl⟩ := step
  cases label with
  | wait events => cases events <;> exact delivered
  | eread =>
      obtain ⟨fds, loop⟩ := Loop.handling_of_event enabled
      simp only [next, loop]
      exact delivered
  | acceptFailed =>
      obtain ⟨fds, loop⟩ := Loop.handling_of_event enabled.1
      simp only [next, loop]
      exact delivered
  | accepted fd addr =>
      obtain ⟨fds, loop⟩ := Loop.handling_of_event enabled.1
      simp only [next, loop]
      exact delivered
  | received message =>
      obtain ⟨fd, fds, n, c, -, -, entry, -, result⟩ := inv.of_received enabled
      rw [result]
      exact delivered.onData (s.onData_handled fd message fds entry)
  | recvFailed closed =>
      obtain ⟨fd, event, -⟩ := enabled
      obtain ⟨fds, loop⟩ := Loop.handling_of_event event
      simp only [next, loop]
      cases closed <;> exact delivered
  | loggedIn answers =>
      obtain ⟨fd, pid, fds, loop⟩ := Loop.login_of_loggingIn enabled
      simp only [next, loop]
      split
      · exact delivered.send fd loginSuccess (by simp)
      · exact delivered
  | slept => exact delivered
  | start =>
      simp only [next]
      split <;> exact delivered
  | answer job resp =>
      cases resp with
      | none => exact delivered
      | some message =>
          have socket : s.sockets job.fd = some job.accept :=
            (inv.asked job (.inr enabled.2)).resolve_right awaited
          refine Delivered.send (s := { s with calls := s.calls.erase job }) delivered job.fd
            message ?_
          rintro n ⟨rfl⟩
          exact socket

/-- An answer for a connection that has been closed is sent all the same, but not there. -/
theorem not_delivered_of_not_awaited {s t : Server Fd Addr} {ports : Ports Fd}
    (inv : s.Incarnations) {label : Label Fd Addr} (late : ¬ s.Awaited label)
    (step : Step ports s label t) : ¬ t.Delivered := by
  obtain ⟨-, rfl⟩ := step
  intro delivered
  cases label with
  | answer job resp =>
      cases resp with
      | none => exact late trivial
      | some message =>
          have closed : job.accept ∈ s.closed := Classical.not_not.mp late
          have last := delivered ⟨job.fd, message, s.sockets job.fd, some job.accept⟩
            (List.mem_append_right _ (List.mem_singleton.mpr rfl)) job.accept rfl
          exact inv.present job.fd job.accept last closed
  | _ => exact late trivial

/--
In every run of the network service, every answer of a worker reaches the
connection that asked, still open, if and only if no worker answers for a
connection that has been closed in the meantime.
-/
theorem delivered_iff_awaited {ports : Ports Fd}
    {steps : List (Server Fd Addr × Label Fd Addr)} {t : Server Fd Addr}
    (run : Lib.Run (Step ports) init steps t) :
    (∀ s ∈ Lib.visited steps t, s.Delivered) ↔
      ∀ taken ∈ steps, taken.1.Awaited taken.2 := by
  refine run.safe_iff (fun s label => s.Awaited label) (fun s => s.Incarnations ∧ s.Delivered)
    Delivered ⟨.start, by simp [Delivered, init]⟩ ?_ (fun _ inv => inv.2) ?_
  · rintro s label t ⟨inv, delivered⟩ awaited step
    exact ⟨inv.step step, delivered.step inv awaited step⟩
  · rintro s label t ⟨inv, -⟩ late step
    exact not_delivered_of_not_awaited inv late step

/-! ## Two runs -/

/-- Descriptors for the runs. -/
def ports : Ports Nat := ⟨3, 4⟩

/-- A client connects on descriptor 7, logs in and sends one pack, which a worker takes. -/
def askRun : List (Label Nat Unit) :=
  [.wait (some [4]), .accepted 7 (), .slept, .wait (some [7]), .received authToken, .slept,
    .wait (some [7]), .received [97, 10], .loggedIn ⟨.document, true⟩, .slept,
    .wait (some [7]), .received [0, 1, 65], .start]

/-- The worker answers at once. -/
def answeredRun : List (Label Nat Unit) :=
  askRun ++ [.answer ⟨7, some [97], [65], 0⟩ (some [66])]

theorem answeredRun_legal :
    Lib.Legal (Enabled ports) next (init : Server Nat Unit) answeredRun := by
  decide

theorem delivered_of_answeredRun :
    (∀ s ∈ Lib.visited (Lib.trace next (init : Server Nat Unit) answeredRun)
        (answeredRun.foldl next init), s.Delivered) ↔
      ∀ taken ∈ Lib.trace next (init : Server Nat Unit) answeredRun, taken.1.Awaited taken.2 :=
  delivered_iff_awaited (Lib.Run.of_legal answeredRun_legal)

/-- The client leaves, another one gets the descriptor 7, and then the worker answers. -/
def lateRun : List (Label Nat Unit) :=
  askRun ++ [.slept, .wait (some [7]), .recvFailed true, .slept, .wait (some [4]),
    .accepted 7 (), .answer ⟨7, some [97], [65], 0⟩ (some [66])]

theorem lateRun_legal : Lib.Legal (Enabled ports) next (init : Server Nat Unit) lateRun := by
  decide

/-- The answer to the first connection is sent on the second one. -/
theorem answer_astray :
    ∃ (steps : List (Server Nat Unit × Label Nat Unit)) (t : Server Nat Unit),
      Lib.Run (Step ports) init steps t ∧ ⟨7, [66], some 1, some 0⟩ ∈ t.sent ∧
        ¬ t.Delivered := by
  have astray : ⟨7, [66], some 1, some 0⟩ ∈ (lateRun.foldl next (init : Server Nat Unit)).sent := by
    decide
  refine ⟨_, _, Lib.Run.of_legal lateRun_legal, astray, fun delivered => ?_⟩
  exact absurd (delivered _ astray 0 rfl) (by decide)

end Server

end WindLtask.Gate
