import Mathlib.Logic.Function.Basic
import WindLtask.Worker.Login

/-!
# The gate

The state of `gate.lua` and its handlers.  A handler returns what it asks of the
network or of a worker; the coroutine around it is the subject of the next module.
A connection carries the number of the accept that made it, which is history: the
closures that `on_data` forks hold the table of the connection and the number of
the file descriptor, and the two can part.
-/

namespace WindLtask.Gate

/-- `AUTH_TOKEN`, the bytes of `STARRE` and a newline. -/
def authToken : Bytes := [83, 84, 65, 82, 82, 69, 10]

/-- The loop of `split`; every pass that goes on takes at least two bytes from `s`. -/
def splitLoop : Nat → Bytes → List Bytes → Bytes × List Bytes
  | 0, s, packs => (s, packs)
  | fuel + 1, s, packs =>
      match s with
      | high :: low :: rest =>
          let sz := high.toNat * 256 + low.toNat
          if sz ≤ rest.length then splitLoop fuel (rest.drop sz) (packs ++ [rest.take sz])
          else (s, packs)
      | _ => (s, packs)

/-- `split(s)` -/
def split (s : Bytes) : Bytes × List Bytes :=
  splitLoop s.length s []

/-- The table that `on_accept` makes for a connection. -/
structure Conn (Addr : Type) where
  addr : Addr
  authed : Bool
  login : Bool
  pid : Option Bytes
  last : Bytes
  /-- the accept that made it -/
  accept : Nat

/-- What `on_data` goes on to do. -/
inductive Reaction (Addr : Type) where
  /-- ask for the player id -/
  | welcome
  | shutdown
  | login (pid : Bytes) (addr : Addr)
  /-- fork one coroutine for each pack -/
  | requests (pid : Option Bytes) (packs : List Bytes)

variable {Fd Addr : Type} [DecidableEq Fd]

/-- `self.on_accept(fd, addr)` on the table `connection`. -/
def onAccept (connection : Fd → Option (Conn Addr)) (fd : Fd) (addr : Addr) (accept : Nat) :
    Fd → Option (Conn Addr) :=
  Function.update connection fd (some ⟨addr, false, false, none, [], accept⟩)

/-- `self.on_data(fd, message)` up to its first call; `none` when its assertion fails. -/
def onData (connection : Fd → Option (Conn Addr)) (fd : Fd) (message : Bytes) :
    Option ((Fd → Option (Conn Addr)) × Reaction Addr) :=
  match connection fd with
  | none => none
  | some c =>
      if c.authed = false then
        if message = authToken then
          some (Function.update connection fd (some { c with authed := true }), .welcome)
        else some (Function.update connection fd none, .shutdown)
      else if c.login = false then
        let pid := message.dropLast
        some (Function.update connection fd (some { c with pid := some pid, login := true }),
          .login pid c.addr)
      else
        let (last, packs) := split (c.last ++ message)
        some (Function.update connection fd (some { c with last := last }), .requests c.pid packs)

end WindLtask.Gate
