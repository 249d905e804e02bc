import WindLtask.Gate.Incarnations

/-!
# Survival of the network loop

When the loop coroutine of the network service outlives what its clients do.  The
gate always knows a descriptor whose data arrive, so its assertion never fails;
what is left are the `nil` of `epoll.wait` and an error of `player_login`.
-/

set_option linter.unusedSectionVars false

namespace WindLtask.Gate

variable {Fd Addr : Type} [DecidableEq Fd]

/-- A step of the loop coroutine, as opposed to one of a forked coroutine. -/
def Label.ofLoop : Label Fd Addr → Bool
  | .start | .answer _ _ => false
  | _ => true

/-- A bound on the steps that the loop still takes before it is back in `epoll.wait`. -/
def Loop.rest : Loop Fd → Nat
  | .waiting | .raised => 0
  | .handling fds => 2 * fds.length + 1
  | .login _ _ fds => 2 * fds.length + 2

namespace Server

/--
`epoll.wait` returns a table; a login is for an id whose bytes pass the encoding
and which has not logged in before, and the calls of the database return.
-/
def Guarded (s : Server Fd Addr) : Label Fd Addr → Prop
  | .wait events => events.isSome
  | .loggedIn answers => ∀ fd pid fds, s.loop = .login fd pid fds →
      playerLogin s.players pid answers
  | _ => True

/-- A step of another coroutine leaves the loop where it stands. -/
theorem loop_of_other {s : Server Fd Addr} {label : Label Fd Addr}
    (other : label.ofLoop = false) : (s.next label).loop = s.loop := by
  cases label with
  | start =>
      simp only [next]
      split <;> rfl
  | answer job resp => cases resp <;> rfl
  | _ => simp [Label.ofLoop] at other

/-- Descriptors for the runs. -/
def listening : Ports Nat := ⟨3, 4⟩

end Server

end WindLtask.Gate
