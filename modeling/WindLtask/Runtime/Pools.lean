import WindLtask.Runtime.Service

/-!
# One service of a changed pool

What the operations on a pool do to one of its services: to its queue, to the message
that it sends and to its status.
-/

namespace WindLtask.Runtime

variable {D : Type}

namespace Pool

variable {p p' : Pool D} {id x : ℕ}

theorem get_modify {f : Service D → Service D} (keeps : ∀ S, (f S).id = S.id) (x : ℕ) :
    (p.modify id f).get x = if x = id then (p.get x).map f else p.get x := by
  cases is : p.get id with
  | none =>
      rw [modify_absent is]
      split
      · rename_i own
        rw [own, is, Option.map_none]
      · rfl
  | some S =>
      rw [modify_get keeps is]
      split
      · rename_i own
        rw [own, Function.update_self, is, Option.map_some]
      · rename_i other
        rw [Function.update_of_ne other]

section Get

variable (p : Pool D) (id x : ℕ)

theorem get_statusSet (status : Status) : (p.statusSet id status).get x =
    if x = id then (p.get x).map fun S => { S with status := status } else p.get x :=
  get_modify (f := fun S => { S with status := status }) (fun _ => rfl) x

theorem get_takeOut : (p.takeOut id).get x =
    if x = id then (p.get x).map fun S => { S with out := none } else p.get x :=
  get_modify (f := fun S => { S with out := none }) (fun _ => rfl) x

theorem get_writeReceipt (receipt : Receipt) (bounce : Option (Message D)) :
    (p.writeReceipt id receipt bounce).get x =
      if x = id then (p.get x).map fun S => { S with receipt := receipt, bounce := bounce }
      else p.get x :=
  get_modify (f := fun S => { S with receipt := receipt, bounce := bounce }) (fun _ => rfl) x

theorem get_readReceipt : (p.readReceipt id).get x =
    if x = id then (p.get x).map fun S => { S with receipt := .none, bounce := none }
    else p.get x :=
  get_modify (f := fun S => { S with receipt := .none, bounce := none }) (fun _ => rfl) x

theorem get_sendSignal : (p.sendSignal id).get x =
    if x = id then (p.get x).map fun S => { S with out := some (signalOf id) } else p.get x :=
  get_modify (f := fun S => { S with out := some (signalOf id) }) (fun _ => rfl) x

/-- What `root.init_service` makes of a service. -/
theorem get_init :
    (p.modify id fun S => { S with msg := some [], status := .idle }).get x =
      if x = id then (p.get x).map fun S => { S with msg := some [], status := .idle }
      else p.get x :=
  get_modify (f := fun S => { S with msg := some [], status := .idle }) (fun _ => rfl) x

theorem get_unbounced : (p.modify id fun S => { S with bounce := none }).get x =
    if x = id then (p.get x).map fun S => { S with bounce := none } else p.get x :=
  get_modify (f := fun S => { S with bounce := none }) (fun _ => rfl) x

theorem get_delete : (p.delete id).get x = if x = id then none else p.get x := by
  rw [delete_get]
  exact Function.update_apply _ _ _ _

end Get

theorem get_new {sid : ℕ} (is : p.new sid = some (id, p')) (x : ℕ) :
    p'.get x = if x = id then some (Service.fresh id) else p.get x := by
  obtain ⟨-, -, get, -⟩ := new_spec is
  rw [get]
  exact Function.update_apply _ _ _ _

/-- `service_push_message` for this receiver succeeds. -/
def room (p : Pool D) (x : ℕ) : Bool :=
  match p.get x with
  | none => false
  | some S => S.status ≠ .dead ∧ S.msg.any fun queue => queue.length < p.queueLength - 1

theorem pushed_spec {m : Message D} (pushed : p.pushMessage id m = .succ p') :
    p.room id = true ∧ ∀ x, p'.get x =
      if x = id then (p.get x).map fun S => { S with msg := some (S.queued ++ [m]) }
      else p.get x := by
  unfold pushMessage at pushed
  split at pushed
  · cases pushed
  · rename_i S found
    split at pushed
    · cases pushed
    · rename_i alive
      split at pushed
      · cases pushed
      · rename_i queue has
        split at pushed
        · rename_i short
          cases pushed
          refine ⟨by simp [room, found, alive, has, short], ?_⟩
          intro x
          rw [get_modify (f := fun S => { S with msg := some (queue ++ [m]) }) (fun _ => rfl)]
          split
          · rename_i own
            simp [own, found, Service.queued, has]
          · rfl
        · cases pushed

/-- The messages in the queue of a service. -/
def queuedAt (p : Pool D) (x : ℕ) : List (Message D) := ((p.get x).map Service.queued).getD []

theorem queuedAt_of_map {f : Service D → Service D}
    (is : p'.get x = if x = id then (p.get x).map f else p.get x)
    (same : ∀ S, (f S).queued = S.queued) :
    p'.queuedAt x = p.queuedAt x := by
  unfold queuedAt
  rw [is]
  split
  · cases p.get x <;> simp [same]
  · rfl

section Queued

variable (p : Pool D) (id x : ℕ)

@[simp] theorem queuedAt_statusSet (status : Status) :
    (p.statusSet id status).queuedAt x = p.queuedAt x :=
  queuedAt_of_map (get_statusSet p id x status) fun _ => rfl

@[simp] theorem queuedAt_readReceipt : (p.readReceipt id).queuedAt x = p.queuedAt x :=
  queuedAt_of_map (get_readReceipt p id x) fun _ => rfl

@[simp] theorem queuedAt_sendSignal : (p.sendSignal id).queuedAt x = p.queuedAt x :=
  queuedAt_of_map (get_sendSignal p id x) fun _ => rfl

@[simp] theorem queuedAt_hang : (p.hang id).1.queuedAt x = p.queuedAt x := by
  unfold hang
  split <;> simp

end Queued

theorem sent_spec {m : Message D} (sent : p.sendMessage id m = some p') :
    p.out id = none ∧ ∀ x, p'.get x =
      if x = id then (p.get x).map fun S => { S with out := some m } else p.get x := by
  unfold sendMessage at sent
  split at sent
  · cases sent
  · rename_i S found
    simp only [Option.ite_none_right_eq_some, Option.some.injEq] at sent
    obtain ⟨free, rfl⟩ := sent
    exact ⟨by rw [out_of_get found, free],
      get_modify (f := fun S => { S with out := some m }) fun _ => rfl⟩

/-- What the queue of a service gets when a message is offered to its receiver. -/
def takes (p : Pool D) (m : Message D) (x : ℕ) : List (Message D) :=
  if m.to' = x ∧ p.room x then [m] else []

theorem out_of_map {f : Service D → Service D}
    (is : p'.get x = if x = id then (p.get x).map f else p.get x)
    (same : ∀ S, (f S).out = S.out) : p'.out x = p.out x := by
  unfold out
  rw [is]
  split
  · cases p.get x <;> simp [same]
  · rfl

section Out

variable (p : Pool D) (id x : ℕ)

@[simp] theorem out_statusSet (status : Status) : (p.statusSet id status).out x = p.out x :=
  out_of_map (get_statusSet p id x status) fun _ => rfl

@[simp] theorem out_takeOut : (p.takeOut id).out x = if x = id then none else p.out x := by
  unfold out
  rw [get_takeOut]
  split
  · cases p.get x <;> rfl
  · rfl

@[simp] theorem out_writeReceipt (receipt : Receipt) (bounce : Option (Message D)) :
    (p.writeReceipt id receipt bounce).out x = p.out x :=
  out_of_map (get_writeReceipt p id x receipt bounce) fun _ => rfl

@[simp] theorem out_readReceipt : (p.readReceipt id).out x = p.out x :=
  out_of_map (get_readReceipt p id x) fun _ => rfl

end Out

theorem out_pushed {m : Message D} (pushed : p.pushMessage id m = .succ p') (x : ℕ) :
    p'.out x = p.out x :=
  out_of_map ((pushed_spec pushed).2 x) fun _ => rfl

theorem out_popped {m : Message D} {fromQueue : Bool}
    (is : p.popMessage id = some (m, fromQueue, p')) (x : ℕ) : p'.out x = p.out x := by
  unfold popMessage at is
  split at is
  · cases is
  · split at is
    · cases is
      exact out_of_map (get_unbounced p id x) fun _ => rfl
    · split at is
      · cases is
      · rename_i first rest has
        cases is
        exact out_of_map (get_modify (f := fun S => { S with msg := some rest }) (fun _ => rfl) x)
          fun _ => rfl

/-- Every message that a service sends names it. -/
def Signed (p : Pool D) : Prop := ∀ x m, p.out x = some m → m.from' = x

namespace Signed

theorem same (signed : p.Signed) (out : ∀ x, p'.out x = p.out x) : p'.Signed :=
  fun x m is => signed x m (out x ▸ is)

theorem statusSet (signed : p.Signed) {status : Status} : (p.statusSet id status).Signed :=
  signed.same fun x => out_statusSet p id x status

theorem takeOut (signed : p.Signed) : (p.takeOut id).Signed := by
  intro x m is
  rw [out_takeOut] at is
  split at is
  · cases is
  · exact signed x m is

theorem writeReceipt (signed : p.Signed) {receipt : Receipt} {bounce : Option (Message D)} :
    (p.writeReceipt id receipt bounce).Signed :=
  signed.same fun x => out_writeReceipt p id x receipt bounce

theorem readReceipt (signed : p.Signed) : (p.readReceipt id).Signed :=
  signed.same fun x => out_readReceipt p id x

theorem sendSignal (signed : p.Signed) : (p.sendSignal id).Signed := by
  intro x m is
  unfold out at is
  rw [get_sendSignal] at is
  split at is
  · rename_i own
    obtain ⟨S', found, isOut⟩ := Option.bind_eq_some_iff.mp is
    obtain ⟨S, -, rfl⟩ := Option.map_eq_some_iff.mp found
    cases isOut
    exact own.symm
  · exact signed x m is

theorem hang (signed : p.Signed) : (p.hang id).1.Signed := by
  unfold Pool.hang
  split
  case h_4 => exact signed
  case h_5 => exact signed
  case h_6 => exact signed
  case h_7 => exact signed
  all_goals exact signed.statusSet.sendSignal

theorem delete (signed : p.Signed) : (p.delete id).Signed := by
  intro x m is
  unfold out at is
  rw [get_delete] at is
  split at is
  · cases is
  · exact signed x m is

theorem new {sid : ℕ} (signed : p.Signed) (is : p.new sid = some (id, p')) : p'.Signed := by
  intro x m sent
  unfold out at sent
  rw [get_new is] at sent
  split at sent
  · cases sent
  · exact signed x m sent

theorem pushed {m : Message D} (signed : p.Signed) (pushed : p.pushMessage id m = .succ p') :
    p'.Signed :=
  signed.same (out_pushed pushed)

theorem popped {m : Message D} {fromQueue : Bool} (signed : p.Signed)
    (is : p.popMessage id = some (m, fromQueue, p')) : p'.Signed :=
  signed.same (out_popped is)

theorem sent {m : Message D} (signed : p.Signed) (own : m.from' = id)
    (is : p.sendMessage id m = some p') : p'.Signed := by
  intro x n sent
  unfold out at sent
  rw [(sent_spec is).2] at sent
  split at sent
  · rename_i here
    obtain ⟨S', found, isOut⟩ := Option.bind_eq_some_iff.mp sent
    obtain ⟨S, -, rfl⟩ := Option.map_eq_some_iff.mp found
    cases isOut
    exact own.trans here.symm
  · exact signed x n sent

end Signed

/-- A service that is there and has not ended. -/
def Alive (p : Pool D) (x : ℕ) : Prop := ∃ S, p.get x = some S ∧ S.status ≠ .dead

theorem Alive.present (alive : p.Alive x) : p.get x ≠ none := by
  obtain ⟨S, found, -⟩ := alive
  simp [found]

end Pool

end WindLtask.Runtime
