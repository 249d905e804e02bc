import WindLtask.Runtime.Queue
import WindLtask.Runtime.Timer

/-!
# Services

`ltask/src/service.c` and `ltask/src/message.h`: the pool of services and what the
scheduler and a running service do with one of them.  The queue of a service is the
list of its messages (`Queue.Shows`); its Lua state is not modelled.
-/

namespace WindLtask.Runtime

/-- `struct message`; `D` is what `msg` and `sz` point at. -/
structure Message (D : Type) where
  from' : ℕ
  to' : ℕ
  session : ℕ
  type : ℤ
  msg : Option D
deriving DecidableEq

/-- `MESSAGE_SIGNAL` -/
def messageSignal : ℤ := 4

def scheduleNew : ℤ := 0
def scheduleDel : ℤ := 1
def scheduleHang : ℤ := 2

def serviceIdSystem : ℕ := 0
def serviceIdRoot : ℕ := 1

inductive Status where
  | uninitialized
  | idle
  | schedule
  | running
  | done
  | dead
  | exclusive
deriving DecidableEq

inductive Receipt where
  | none
  | done
  | error
  | block
  | responce
deriving DecidableEq

/-- `struct service`; there is no queue before `service_init`. -/
structure Service (D : Type) where
  id : ℕ
  msg : Option (List (Message D))
  out : Option (Message D)
  bounce : Option (Message D)
  status : Status
  receipt : Receipt
deriving DecidableEq

/-- `struct service_pool`; a queue holds one message less than `queueLength`. -/
structure Pool (D : Type) where
  maxService : ℕ
  queueLength : ℕ
  id : ℕ
  s : ℕ → Option (Service D)
  isPow2 : ∃ k, maxService = 2 ^ k

variable {D : Type}

/-- The message that `service_send_signal` leaves for root. -/
def signalOf (id : ℕ) : Message D :=
  { from' := id, to' := serviceIdRoot, session := 0, type := messageSignal, msg := none }

@[simp] theorem signalOf_to (id : ℕ) : (signalOf id : Message D).to' = serviceIdRoot := rfl

@[simp] theorem signalOf_type (id : ℕ) : (signalOf id : Message D).type = messageSignal := rfl

namespace Service

/-- `service_new` -/
def fresh (id : ℕ) : Service D :=
  { id := id, msg := none, out := none, bounce := none, status := .uninitialized, receipt := .none }

/-- The messages in the queue. -/
def queued (S : Service D) : List (Message D) := S.msg.getD []

/-- `service_has_message` -/
def hasMessage (S : Service D) : Bool := S.receipt ≠ .none ∨ S.queued ≠ []

end Service

namespace Pool

/-- `service_slot` -/
def slot (p : Pool D) (id : ℕ) : ℕ := Queue.position p.maxService id

/-- `get_service` -/
def get (p : Pool D) (id : ℕ) : Option (Service D) := (p.s (p.slot id)).filter (·.id = id)

def put (p : Pool D) (S : Service D) : Pool D :=
  { p with s := Function.update p.s (p.slot S.id) (some S) }

def modify (p : Pool D) (id : ℕ) (f : Service D → Service D) : Pool D :=
  match p.get id with
  | some S => p.put (f S)
  | none => p

/-- `service_delete` -/
def delete (p : Pool D) (id : ℕ) : Pool D :=
  match p.get id with
  | some _ => { p with s := Function.update p.s (p.slot id) none }
  | none => p

/-- The loop of `service_new`, with the turns it has left. -/
def newLoop (p : Pool D) : ℕ → ℕ → Option ℕ
  | 0, id => if id = 0 ∨ (p.s (p.slot id)).isSome then none else some id
  | turns + 1, id =>
      if id = 0 ∨ (p.s (p.slot id)).isSome then p.newLoop turns ((id + 1) % word) else some id

/-- `service_new`; there is no service when the answer is `none`. -/
def new (p : Pool D) (sid : ℕ) : Option (ℕ × Pool D) :=
  if sid ≠ 0 then
    if (p.s (p.slot sid)).isSome then none else some (sid, p.put (Service.fresh sid))
  else
    match p.newLoop (p.maxService - 1) p.id with
    | some id => some (id, { p with id := (id + 1) % word }.put (Service.fresh id))
    | none => none

def statusGet (p : Pool D) (id : ℕ) : Status := ((p.get id).map Service.status).getD .dead

def statusSet (p : Pool D) (id : ℕ) (status : Status) : Pool D :=
  p.modify id fun S => { S with status := status }

/-- What `service_push_message` answers; a service without a queue is not initialised. -/
inductive Pushed (D : Type) where
  | succ (p : Pool D)
  | blocked
  | dead
  | noQueue

/-- `service_push_message` -/
def pushMessage (p : Pool D) (id : ℕ) (m : Message D) : Pushed D :=
  match p.get id with
  | none => .dead
  | some S =>
      if S.status = .dead then .dead
      else
        match S.msg with
        | none => .noQueue
        | some queue =>
            if queue.length < p.queueLength - 1 then
              .succ (p.modify id fun S => { S with msg := some (queue ++ [m]) })
            else .blocked

/-- `service_message_out` gives this message and leaves none. -/
def out (p : Pool D) (id : ℕ) : Option (Message D) := (p.get id).bind Service.out

def takeOut (p : Pool D) (id : ℕ) : Pool D := p.modify id fun S => { S with out := none }

/-- `service_send_message`; `none` is its error. -/
def sendMessage (p : Pool D) (id : ℕ) (m : Message D) : Option (Pool D) :=
  match p.get id with
  | none => none
  | some S => if S.out = none then some (p.modify id fun S => { S with out := some m }) else none

/-- `service_write_receipt`; a receipt that was not read is overwritten with a warning. -/
def writeReceipt (p : Pool D) (id : ℕ) (receipt : Receipt) (bounce : Option (Message D)) :
    Pool D :=
  p.modify id fun S => { S with receipt := receipt, bounce := bounce }

/-- `service_read_receipt` -/
def readReceipt (p : Pool D) (id : ℕ) : Pool D :=
  p.modify id fun S => { S with receipt := .none, bounce := none }

/-- `service_pop_message`: the message, and whether it comes from the queue. -/
def popMessage (p : Pool D) (id : ℕ) : Option (Message D × Bool × Pool D) :=
  match p.get id with
  | none => none
  | some S =>
      match S.bounce with
      | some m => some (m, false, p.modify id fun S => { S with bounce := none })
      | none =>
          match S.queued with
          | [] => none
          | m :: rest => some (m, true, p.modify id fun S => { S with msg := some rest })

def hasMessage (p : Pool D) (id : ℕ) : Bool := ((p.get id).map Service.hasMessage).getD false

def sendSignal (p : Pool D) (id : ℕ) : Pool D :=
  p.modify id fun S => { S with out := some (signalOf id) }

/-- `service_hang`: the pool, and whether the service is running. -/
def hang (p : Pool D) (id : ℕ) : Pool D × Bool :=
  match p.statusGet id with
  | .uninitialized | .idle | .schedule => ((p.statusSet id .dead).sendSignal id, false)
  | .dead => (p, false)
  | .running | .done | .exclusive => (p, true)

/-! ## Reading a changed pool -/

variable {p : Pool D} {id : ℕ} {S : Service D}

theorem get_eq_some : p.get id = some S ↔ p.s (p.slot id) = some S ∧ S.id = id := by
  simp [get, Option.filter_eq_some_iff]

theorem id_of_get (is : p.get id = some S) : S.id = id := (get_eq_some.mp is).2

theorem get_none_of_free (free : p.s (p.slot id) = none) : p.get id = none := by
  simp [get, free]

/-- A service that takes its own slot, or one that was free. -/
theorem put_get (own : ∀ T, p.s (p.slot S.id) = some T → T.id = S.id) :
    (p.put S).get = Function.update p.get S.id (some S) := by
  funext y
  by_cases same : y = S.id
  · subst same
    simp [get, put, slot]
  · rw [Function.update_of_ne same]
    by_cases shared : p.slot y = p.slot S.id
    · have before : p.get y = none := by
        apply Option.eq_none_iff_forall_not_mem.mpr
        intro T found
        obtain ⟨there, idT⟩ := get_eq_some.mp found
        exact same (idT ▸ own T (shared ▸ there))
      have after : (p.put S).s ((p.put S).slot y) = some S := by
        simp only [put, slot] at shared ⊢
        rw [shared, Function.update_self]
      rw [before, get, after, Option.filter_eq_none_iff]
      rintro T ⟨⟩
      simpa using Ne.symm same
    · have after : (p.put S).s ((p.put S).slot y) = p.s (p.slot y) :=
        Function.update_of_ne shared _ _
      rw [get, after, get]

theorem modify_get {f : Service D → Service D} (keeps : ∀ S, (f S).id = S.id)
    (is : p.get id = some S) :
    (p.modify id f).get = Function.update p.get id (some (f S)) := by
  obtain ⟨there, idS⟩ := get_eq_some.mp is
  have own : ∀ T, p.s (p.slot (f S).id) = some T → T.id = (f S).id := by
    intro T found
    rw [keeps, idS, there] at found
    rw [keeps, ← Option.some.inj found]
  simp only [modify, is]
  rw [put_get own, keeps, idS]

theorem statusSet_get (is : p.get id = some S) (status : Status) :
    (p.statusSet id status).get =
      Function.update p.get id (some { S with status := status }) :=
  modify_get (f := fun S => { S with status := status }) (fun _ => rfl) is

theorem takeOut_get (is : p.get id = some S) :
    (p.takeOut id).get = Function.update p.get id (some { S with out := none }) :=
  modify_get (f := fun S => { S with out := none }) (fun _ => rfl) is

theorem writeReceipt_get (is : p.get id = some S) (receipt : Receipt)
    (bounce : Option (Message D)) :
    (p.writeReceipt id receipt bounce).get =
      Function.update p.get id (some { S with receipt := receipt, bounce := bounce }) :=
  modify_get (f := fun S => { S with receipt := receipt, bounce := bounce }) (fun _ => rfl) is

theorem readReceipt_get (is : p.get id = some S) :
    (p.readReceipt id).get =
      Function.update p.get id (some { S with receipt := .none, bounce := none }) :=
  modify_get (f := fun S => { S with receipt := .none, bounce := none }) (fun _ => rfl) is

theorem sendSignal_get (is : p.get id = some S) :
    (p.sendSignal id).get = Function.update p.get id (some { S with out := some (signalOf id) }) :=
  modify_get (f := fun S => { S with out := some (signalOf id) }) (fun _ => rfl) is

theorem statusGet_of_get (is : p.get id = some S) : p.statusGet id = S.status := by
  simp [statusGet, is]

theorem out_of_get (is : p.get id = some S) : p.out id = S.out := by
  simp [out, is]

theorem modify_absent {f : Service D → Service D} (is : p.get id = none) : p.modify id f = p := by
  simp [modify, is]

theorem delete_get : (p.delete id).get = Function.update p.get id none := by
  cases is : p.get id with
  | none =>
      have same : p.delete id = p := by simp [delete, is]
      rw [same, ← is, Function.update_eq_self]
  | some S =>
      obtain ⟨there, idS⟩ := get_eq_some.mp is
      funext y
      by_cases same : y = id
      · subst same
        simp only [delete, is]
        simp [get, slot]
      · rw [Function.update_of_ne same]
        simp only [delete, is]
        by_cases shared : p.slot y = p.slot id
        · have before : p.get y = none := by
            simp only [get, shared, there, Option.filter_eq_none_iff]
            rintro T ⟨⟩
            simpa [idS] using Ne.symm same
          rw [before]
          simp only [slot] at shared
          simp [get, slot, shared]
        · have after : Function.update p.s (p.slot id) none (p.slot y) = p.s (p.slot y) :=
            Function.update_of_ne shared _ _
          simp only [get]
          exact congrArg (Option.filter _) after

theorem newLoop_spec {turns start : ℕ} (is : p.newLoop turns start = some id) :
    id ≠ 0 ∧ p.s (p.slot id) = none := by
  induction turns generalizing start with
  | zero =>
      simp only [newLoop, Option.ite_none_left_eq_some, not_or] at is
      obtain ⟨⟨nonzero, free⟩, ⟨⟩⟩ := is
      exact ⟨nonzero, by simpa using free⟩
  | succ turns ih =>
      simp only [newLoop] at is
      split at is
      · exact ih is
      · rename_i free
        obtain ⟨nonzero, free⟩ := not_or.mp free
        cases is
        exact ⟨nonzero, by simpa using free⟩

/-- A new service gets an id whose slot was free. -/
theorem new_spec {sid : ℕ} {p' : Pool D} (is : p.new sid = some (id, p')) :
    id ≠ 0 ∧ p.get id = none ∧ p'.get = Function.update p.get id (some (Service.fresh id)) ∧
      p'.maxService = p.maxService ∧ p'.queueLength = p.queueLength := by
  unfold new at is
  split at is
  · rename_i nonzero
    simp only [Option.ite_none_left_eq_some] at is
    obtain ⟨free, same⟩ := is
    obtain ⟨rfl, rfl⟩ := Prod.mk.inj (Option.some.inj same)
    have free : p.s (p.slot sid) = none := by simpa using free
    exact ⟨nonzero, get_none_of_free free, put_get (by simp [Service.fresh, free]), rfl, rfl⟩
  · cases found : p.newLoop (p.maxService - 1) p.id with
    | none => simp [found] at is
    | some i =>
        simp only [found] at is
        obtain ⟨rfl, rfl⟩ := Prod.mk.inj (Option.some.inj is)
        obtain ⟨nonzero, free⟩ := newLoop_spec found
        exact ⟨nonzero, get_none_of_free free,
          put_get (p := { p with id := (i + 1) % word }) (S := Service.fresh i)
            (by simpa [Service.fresh, slot] using by simp [slot] at free; simp [free]), rfl, rfl⟩

@[simp] theorem modify_maxService (p : Pool D) (id : ℕ) (f : Service D → Service D) :
    (p.modify id f).maxService = p.maxService := by
  unfold modify
  split <;> rfl

@[simp] theorem modify_queueLength (p : Pool D) (id : ℕ) (f : Service D → Service D) :
    (p.modify id f).queueLength = p.queueLength := by
  unfold modify
  split <;> rfl

@[simp] theorem delete_queueLength (p : Pool D) (id : ℕ) :
    (p.delete id).queueLength = p.queueLength := by
  unfold delete
  split <;> rfl

end Pool

end WindLtask.Runtime
