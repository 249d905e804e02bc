import WindLtask.Runtime.Pools
import WindLtask.Runtime.Safety

/-!
# The messages of a step

What a step of the scheduler does to the queue of a service and to the message that a
service sends: it puts its arrivals behind the queue and takes its departures from the
front, and the owner of the schedule takes the messages that services send.
-/

namespace WindLtask.Runtime

open Lib

variable {D : Type}

namespace World

variable {config : Config} {w w' : World D} {t : Thread} {x : ℕ}

/-! ## The queue of a service -/

/-- The message that the next step of the owner offers to another service. -/
def carries (w : World D) : Option (Message D) :=
  match w.owner with
  | some (_, .dispatch _ (id :: _)) =>
      match w.pool.out id with
      | none => none
      | some msg =>
          if w.pool.statusGet id = .dead then
            if msg.to' = serviceIdRoot ∧ msg.type = messageSignal then some msg else none
          else if msg.to' = serviceIdSystem then none
          else some msg
  | some (.exclusive _, .sendOut msg) => if msg.to' = serviceIdSystem then none else some msg
  | some (.exclusive e, .sending (_ + 1) blocked) =>
      match (w.exclusives e).sending with
      | [] => none
      | msg :: _ => if blocked.check msg.to' then none else some msg
  | _ => none

/-- The messages that a step puts into the queue of a service. -/
def arrivals (w : World D) (x : ℕ) : Action D → List (Message D)
  | .owner =>
      match w.carries with
      | some msg => w.pool.takes msg x
      | none => []
  | _ => []

@[simp] theorem scheduleBack_pool (id : ℕ) : (w.scheduleBack id).pool = w.pool := by
  unfold scheduleBack
  split <;> rfl

@[simp] theorem scheduleBack_exclusives (id : ℕ) :
    (w.scheduleBack id).exclusives = w.exclusives := by
  unfold scheduleBack
  split <;> rfl

theorem dispatchScheduleMessage_exclusives (id : ℕ) (msg : Message D) :
    (w.dispatchScheduleMessage id msg).exclusives = w.exclusives := by
  unfold dispatchScheduleMessage
  split
  · rfl
  split
  · split <;> rfl
  split
  · rfl
  split
  · dsimp only
    split
    · rfl
    · split <;> simp [setPool]
  · rfl

theorem wake_exclusives (id : ℕ) : (w.wake id).exclusives = w.exclusives := by
  unfold wake
  split <;> simp [setPool]

/-- A service that `service_init` has made. -/
def Ready (w : World D) (x : ℕ) : Prop :=
  ∃ S, w.pool.get x = some S ∧ S.status ≠ .uninitialized

theorem Ready.present (ready : w.Ready x) : w.pool.get x ≠ none := by
  obtain ⟨S, found, -⟩ := ready
  simp [found]

/-- The messages that a service sends in a step. -/
def sent (w : World D) (x : ℕ) : Action D → List (Message D)
  | .call t (.send m) =>
      if w.runs t = some x ∧ (w.pool.sendMessage x { m with from' := x }).isSome then
        [{ m with from' := x }]
      else []
  | _ => []

/-- The messages of a service that the owner of the schedule takes in a step. -/
def taken (w : World D) (x : ℕ) : Action D → List (Message D)
  | .owner =>
      match w.owner with
      | some (_, .dispatch _ (id :: _)) => if id = x then (w.pool.out x).toList else []
      | _ => []
  | _ => []

end World

end WindLtask.Runtime
