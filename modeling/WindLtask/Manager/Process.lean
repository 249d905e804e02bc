import Mathlib.Logic.Function.Basic

/-!
# The state manager

The service `service/state_mgr.lua`, as a process that handles one message at a
time.  Between two yields a handler runs atomically, so the process keeps its
three tables `state`, `locked` and `waitting`, the part of the `ltask` runtime
that `ltask.wait` and `ltask.wakeup` use, and the coroutines that are suspended
in a call to another service: `newstate` inside `ltask.spawn` and `unlock` inside
the `patch` call.  A lock request is named by its session, which also stands for
the identity of its `names` table, the token of `ltask.wait`.
-/

namespace WindLtask.Manager

/-- The manager process. -/
structure Process (Name Addr Rid D : Type) where
  /-- the table `state`: name to cell address -/
  state : Name → Option Addr
  /-- the table `locked`: absent, `false` or `true` -/
  locked : Name → Option Bool
  /-- the list `waitting` -/
  waitting : List (Rid × List Name)
  /-- `session_waiting`: the tokens on which a coroutine waits -/
  sessionWaiting : Rid → Bool
  /-- `wakeup_queue`: the coroutines to resume, with their results -/
  wakeupQueue : List (Rid × List (Option Addr))
  /-- the `newstate` coroutines inside `ltask.spawn` -/
  spawning : Rid → Option Name
  /-- the `unlock` coroutines inside a `patch` call: the name, and the entries still to visit -/
  patching : Rid → Option (Name × List (Name × Option D))

/-- A message the manager handles. -/
inductive Event (Name Addr Rid T D : Type) where
  | newstate (rid : Rid) (name : Name) (t : T)
  | spawned (rid : Rid) (addr : Addr)
  | spawnFailed (rid : Rid)
  | releasestate (name : Name)
  | lock (rid : Rid) (names : List Name)
  | unlock (rid : Rid) (patchMap : List (Name × Option D))
  | patched (rid : Rid)
  | patchFailed (rid : Rid)

/-- A message the manager sends. -/
inductive Out (Name Addr Rid T D : Type) where
  | spawn (rid : Rid) (name : Name) (t : T)
  | created (rid : Rid)
  | createRaised (rid : Rid)
  | exit (addr : Addr)
  | granted (rid : Rid) (list : List (Option Addr))
  | patch (rid : Rid) (addr : Addr) (patch : D)
  | unlocked (rid : Rid)
  /-- the `unlock` coroutine ended with an error before it freed the names `left` -/
  | unlockRaised (rid : Rid) (left : List Name)
  deriving DecidableEq

namespace Process

variable {Name Addr Rid T D : Type} [DecidableEq Name] [DecidableEq Rid]

/-- The manager just after `StateMgr init`. -/
def init : Process Name Addr Rid D where
  state := fun _ => none
  locked := fun _ => none
  waitting := []
  sessionWaiting := fun _ => false
  wakeupQueue := []
  spawning := fun _ => none
  patching := fun _ => none

/-- The test `if locked[name] then`. -/
def isLocked (p : Process Name Addr Rid D) (name : Name) : Bool :=
  p.locked name == some true

/-- The loop `for _,name in ipairs(names) do locked[name] = true end`. -/
def lockAll (names : List Name) (locked : Name → Option Bool) : Name → Option Bool :=
  names.foldl (fun table name => Function.update table name (some true)) locked

/-- `try_lock(names)`; `none` when it returns `false`. -/
def tryLock (p : Process Name Addr Rid D) (names : List Name) :
    Option (Process Name Addr Rid D) :=
  if names.any p.isLocked then none else some { p with locked := lockAll names p.locked }

/-- `querystates(names)`: a name without a cell leaves a hole in the list. -/
def querystates (p : Process Name Addr Rid D) (names : List Name) : List (Option Addr) :=
  names.map p.state

/-- `ltask.wakeup(names, list)` on the names table of the request `rid`. -/
def wakeup (p : Process Name Addr Rid D) (rid : Rid) (list : List (Option Addr)) :
    Process Name Addr Rid D :=
  if p.sessionWaiting rid then
    { p with
      wakeupQueue := p.wakeupQueue ++ [(rid, list)]
      sessionWaiting := Function.update p.sessionWaiting rid false }
  else p

/-- The `for` loop of `try_wakup` over the entries from `index` on: the first one it locks. -/
def scan (p : Process Name Addr Rid D) (index : Nat) :
    List (Rid × List Name) → Option (Nat × Rid × List Name × Process Name Addr Rid D)
  | [] => none
  | (rid, names) :: rest =>
      match p.tryLock names with
      | some q => some (index, rid, names, q)
      | none => scan p (index + 1) rest

/-- The `while true` loop of `try_wakup`; `none` when the fuel runs out. -/
def wakupLoop : Nat → Nat → Process Name Addr Rid D → Option (Process Name Addr Rid D)
  | 0, _, _ => none
  | fuel + 1, index, p =>
      match p.scan index (p.waitting.drop index) with
      | none => some p
      | some (i, rid, names, q) =>
          let q := { q with waitting := q.waitting.eraseIdx i }
          wakupLoop fuel i (q.wakeup rid (q.querystates names))

/-- `try_wakup()`, with one round of fuel for every waiting request. -/
def tryWakup (p : Process Name Addr Rid D) : Process Name Addr Rid D :=
  (wakupLoop (p.waitting.length + 1) 0 p).getD p

/-- `dispatch_wakeup`: every woken lock request replies with its list. -/
def dispatchWakeup (p : Process Name Addr Rid D) :
    Process Name Addr Rid D × List (Out Name Addr Rid T D) :=
  ({ p with wakeupQueue := [] }, p.wakeupQueue.map fun entry => .granted entry.1 entry.2)

/-- `locked[name] = false`. -/
def free (p : Process Name Addr Rid D) (name : Name) : Process Name Addr Rid D :=
  { p with locked := Function.update p.locked name (some false) }

/-- `S.newstate(name, t)` up to the spawn of the cell. -/
def newstate (p : Process Name Addr Rid D) (rid : Rid) (name : Name) (t : T) :
    Process Name Addr Rid D × List (Out Name Addr Rid T D) :=
  if (p.state name).isSome then (p, [.createRaised rid])
  else ({ p with spawning := Function.update p.spawning rid (some name) }, [.spawn rid name t])

/-- The rest of `S.newstate`, once `ltask.spawn` has returned the address. -/
def spawned (p : Process Name Addr Rid D) (rid : Rid) (addr : Addr) :
    Process Name Addr Rid D × List (Out Name Addr Rid T D) :=
  match p.spawning rid with
  | none => (p, [])
  | some name =>
      let q := { p with
        state := Function.update p.state name (some addr)
        locked := Function.update p.locked name (some false)
        spawning := Function.update p.spawning rid none }
      (q.tryWakup, [.created rid])

/-- `S.releasestate(name)`. -/
def releasestate (p : Process Name Addr Rid D) (name : Name) :
    Process Name Addr Rid D × List (Out Name Addr Rid T D) :=
  match p.state name with
  | some addr => ({ p with state := Function.update p.state name none }, [.exit addr])
  | none => (p, [])

/-- `S.lock(names)`. -/
def lock (p : Process Name Addr Rid D) (rid : Rid) (names : List Name) :
    Process Name Addr Rid D × List (Out Name Addr Rid T D) :=
  match p.tryLock names with
  | some q => (q, [.granted rid (q.querystates names)])
  | none =>
      ({ p with
        waitting := p.waitting ++ [(rid, names)]
        sessionWaiting := Function.update p.sessionWaiting rid true }, [])

/-- The loop of `S.unlock` over the entries still to visit, up to its next yield or its end. -/
def unlockFrom (rid : Rid) : List (Name × Option D) → Process Name Addr Rid D →
    Process Name Addr Rid D × List (Out Name Addr Rid T D)
  | [], p => (p.tryWakup, [.unlocked rid])
  | (name, none) :: rest, p => unlockFrom rid rest (p.free name)
  | (name, some patch) :: rest, p =>
      match p.state name with
      | some addr =>
          ({ p with patching := Function.update p.patching rid (some (name, rest)) },
            [.patch rid addr patch])
      -- `ltask.call(nil, ..)` raises
      | none => (p, [.unlockRaised rid (name :: rest.map Prod.fst)])

/-- `S.unlock` resumed by the reply of its `patch` call. -/
def patched (p : Process Name Addr Rid D) (rid : Rid) :
    Process Name Addr Rid D × List (Out Name Addr Rid T D) :=
  match p.patching rid with
  | none => (p, [])
  | some (name, rest) =>
      unlockFrom rid rest (free { p with patching := Function.update p.patching rid none } name)

/-- `S.unlock` ended by the error that its `patch` call returned. -/
def patchFailed (p : Process Name Addr Rid D) (rid : Rid) :
    Process Name Addr Rid D × List (Out Name Addr Rid T D) :=
  match p.patching rid with
  | none => (p, [])
  | some (name, rest) =>
      ({ p with patching := Function.update p.patching rid none },
        [.unlockRaised rid (name :: rest.map Prod.fst)])

/-- The coroutine that a message starts or resumes, up to its next yield. -/
def body (p : Process Name Addr Rid D) :
    Event Name Addr Rid T D → Process Name Addr Rid D × List (Out Name Addr Rid T D)
  | .newstate rid name t => p.newstate rid name t
  | .spawned rid addr => p.spawned rid addr
  | .spawnFailed rid =>
      ({ p with spawning := Function.update p.spawning rid none }, [.createRaised rid])
  | .releasestate name => p.releasestate name
  | .lock rid names => p.lock rid names
  | .unlock rid patchMap => unlockFrom rid patchMap p
  | .patched rid => p.patched rid
  | .patchFailed rid => p.patchFailed rid

/-- `ltask.schedule_message`: handle one message, then run the woken coroutines. -/
def handle (p : Process Name Addr Rid D) (event : Event Name Addr Rid T D) :
    Process Name Addr Rid D × List (Out Name Addr Rid T D) :=
  let result := p.body event
  let woken := result.1.dispatchWakeup
  (woken.1, result.2 ++ woken.2)

end Process

end WindLtask.Manager
