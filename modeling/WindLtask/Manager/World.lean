import WindLtask.Lib.Transition
import WindLtask.Manager.Wakeup

/-!
# The manager among its clients

The manager runs against any clients: messages arrive in any order, replies of
the calls it makes arrive at any time, and the only discipline is that of the
callers themselves.  A session number is used once, a reply answers a call that
is outstanding, and an `unlock` is the close of one outstanding grant, so its
patch map has exactly the names of that grant.

The fields besides the process are the history of the run: where each lock
request stands and which replies and completions were sent.
-/

namespace WindLtask.Manager

/-- Where a lock request stands. -/
inductive Phase (Name : Type) where
  | idle
  | queued (names : List Name)
  /-- granted, and not returned yet -/
  | held (names : List Name)
  /-- its `unlock` is suspended and has these names still to free -/
  | unlocking (left : List Name)
  /-- its `unlock` ended with an error before it freed these names -/
  | stuck (left : List Name)
  | finished
  deriving DecidableEq, Repr

/-- The names a grant covers: until its `unlock` frees them, one by one. -/
def Phase.covered {Name : Type} : Phase Name → List Name
  | .held names => names
  | .unlocking left => left
  | .stuck left => left
  | _ => []

/-- A queued request becomes a held grant. -/
def Phase.grant {Name : Type} : Phase Name → Phase Name
  | .queued names => .held names
  | other => other

/-- A suspended `unlock` has the names of its loop still to free. -/
def Phase.park {Name D : Type} :
    Phase Name → Option (Name × List (Name × Option D)) → Phase Name
  | .unlocking _, some (name, rest) => .unlocking (name :: rest.map Prod.fst)
  | other, _ => other

/-- A lock reply, with the table `state` at the moment it was sent. -/
structure Reply (Name Addr Rid : Type) where
  rid : Rid
  list : List (Option Addr)
  cells : Name → Option Addr

/-- The manager process with the history of its run. -/
structure World (Name Addr Rid D : Type) where
  proc : Process Name Addr Rid D
  phase : Rid → Phase Name
  /-- the lock requests received -/
  requests : List (Rid × List Name)
  /-- the lock replies sent -/
  replies : List (Reply Name Addr Rid)
  /-- the grants whose `unlock` has completed -/
  finished : List Rid

namespace World

variable {Name Addr Rid T D : Type} [DecidableEq Name] [DecidableEq Rid]

/-- The start: no state, no request. -/
def init : World Name Addr Rid D where
  proc := .init
  phase := fun _ => .idle
  requests := []
  replies := []
  finished := []

/-- The grant of `rid` covers the name `n`. -/
def Covers (w : World Name Addr Rid D) (rid : Rid) (n : Name) : Prop :=
  n ∈ (w.phase rid).covered

/-- Record an arriving message. -/
def receive (w : World Name Addr Rid D) : Event Name Addr Rid T D → World Name Addr Rid D
  | .lock rid names =>
      { w with
        phase := Function.update w.phase rid (.queued names)
        requests := w.requests ++ [(rid, names)] }
  | .unlock rid patchMap =>
      { w with phase := Function.update w.phase rid (.unlocking (patchMap.map Prod.fst)) }
  | _ => w

/-- Record a message sent. -/
def send (w : World Name Addr Rid D) : Out Name Addr Rid T D → World Name Addr Rid D
  | .granted rid list =>
      { w with
        phase := Function.update w.phase rid (w.phase rid).grant
        replies := w.replies ++ [⟨rid, list, w.proc.state⟩] }
  | .unlocked rid =>
      { w with
        phase := Function.update w.phase rid .finished
        finished := w.finished ++ [rid] }
  | .unlockRaised rid left => { w with phase := Function.update w.phase rid (.stuck left) }
  | _ => w

/-- Record the loops that are suspended now. -/
def settle (w : World Name Addr Rid D) : World Name Addr Rid D :=
  { w with phase := fun rid => (w.phase rid).park (w.proc.patching rid) }

/-- The manager handles one message. -/
def next (w : World Name Addr Rid D) (event : Event Name Addr Rid T D) :
    World Name Addr Rid D :=
  let result := w.proc.handle event
  settle (result.2.foldl send { w.receive event with proc := result.1 })

/-- The messages that can arrive. -/
def Enabled (w : World Name Addr Rid D) : Event Name Addr Rid T D → Prop
  | .newstate rid _ _ => w.proc.spawning rid = none
  | .spawned rid addr => (w.proc.spawning rid).isSome ∧ ∀ n, w.proc.state n ≠ some addr
  | .spawnFailed rid => (w.proc.spawning rid).isSome
  | .releasestate _ => True
  | .lock rid _ => w.phase rid = .idle
  | .unlock rid patchMap => ∃ names, w.phase rid = .held names ∧
      (patchMap.map Prod.fst).Nodup ∧ ∀ n, n ∈ patchMap.map Prod.fst ↔ n ∈ names
  | .patched rid => (w.proc.patching rid).isSome
  | .patchFailed rid => (w.proc.patching rid).isSome

/-- One step of the manager and its clients. -/
def Step (w : World Name Addr Rid D) (event : Event Name Addr Rid T D)
    (w' : World Name Addr Rid D) : Prop :=
  w.Enabled event ∧ w' = w.next event

/-- While one name alone has a cell, every other address is new. -/
theorem new_of_single {addr other : Addr} (apart : addr ≠ other) (name n : Name) :
    Function.update (fun _ => none) name (some addr) n ≠ some other := by
  rw [Function.update_apply]
  split
  · exact fun same => apart (Option.some.inj same)
  · exact (Option.some_ne_none other).symm

end World

end WindLtask.Manager
