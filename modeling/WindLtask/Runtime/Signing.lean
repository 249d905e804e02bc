import WindLtask.Runtime.Sending

/-!
# The senders in the messages

No service can send a message in the name of another: each message that has still to be
delivered names the service that sent it.
-/

namespace WindLtask.Runtime

open Lib

variable {D : Type}

namespace World

variable {config : Config} {w w' : World D} {t : Thread} {x : ℕ}

/-! ## The sender in a message -/

/-- The message that an exclusive thread which owns the schedule has still to send. -/
def letter : Phase D → Option (Message D)
  | .sendOut msg => some msg
  | .check _ next => letter next
  | _ => none

/-- The owner of the schedule is an exclusive thread with such a message. -/
def Lettered (w : World D) (e : ℕ) (m : Message D) : Prop :=
  ∃ phase, w.owner = some (.exclusive e, phase) ∧ letter phase = some m

/-- Every message that has still to be delivered names its sender. -/
structure Signed (w : World D) : Prop where
  out : w.pool.Signed
  sending : ∀ e, ∀ m ∈ (w.exclusives e).sending, m.from' = w.services e
  acquiring : ∀ e m, (w.exclusives e).stage = .acquiring (some m) → m.from' = w.services e
  lettered : ∀ e m, w.Lettered e m → m.from' = w.services e

theorem dispatchScheduleMessage_signed {id : ℕ} {msg : Message D} (signed : w.pool.Signed) :
    (w.dispatchScheduleMessage id msg).pool.Signed := by
  unfold dispatchScheduleMessage
  split
  · exact signed.writeReceipt
  split
  · split
    · rename_i sid pool new
      exact (signed.new new).writeReceipt
    · exact signed.writeReceipt
  split
  · exact signed.delete.writeReceipt
  split
  · dsimp only
    split
    · exact signed.statusSet.sendSignal.writeReceipt
    · split
      · simpa [setPool] using signed.writeReceipt
      · exact signed.hang.writeReceipt
  · exact signed.writeReceipt

theorem dispatchOutMessage_signed {id : ℕ} {msg : Message D} {next : Phase D}
    (signed : w.pool.Signed) : (w.dispatchOutMessage t id msg next).pool.Signed := by
  unfold dispatchOutMessage
  split
  · exact dispatchScheduleMessage_signed signed
  · cases pushed : w.pool.pushMessage msg.to' msg with
    | succ pool => exact (signed.pushed pushed).writeReceipt
    | blocked => exact signed.writeReceipt
    | dead => exact signed.writeReceipt
    | noQueue => exact signed

theorem dispatchSignal_signed {goal : Goal} {id : ℕ} {doneJob : List ℕ} (signed : w.pool.Signed) :
    (w.dispatchSignal t goal id doneJob).pool.Signed := by
  unfold dispatchSignal
  split
  · exact signed
  · split
    · rename_i msg out signal
      dsimp only
      cases pushed : (w.pool.takeOut id).pushMessage msg.to' msg with
      | succ pool => exact signed.takeOut.pushed pushed
      | blocked => simpa [go, setPool] using signed.takeOut
      | dead => exact signed.takeOut.delete
      | noQueue => exact signed
    · exact signed

theorem wake_signed {id : ℕ} (signed : w.pool.Signed) : (w.wake id).pool.Signed := by
  unfold wake
  split
  · simpa [setPool] using signed.statusSet
  · exact signed

theorem go_lettered {phase : Phase D} (none' : letter phase = none) {e : ℕ} {m : Message D} :
    ¬ (w.go t phase).Lettered e m := by
  rintro ⟨phase', owns, is⟩
  cases owns
  rw [none'] at is
  cases is

theorem dispatchOutMessage_lettered {id : ℕ} {msg : Message D} {next : Phase D}
    (none' : letter next = none) {e : ℕ} {m : Message D}
    (is : (w.dispatchOutMessage t id msg next).Lettered e m) : w.Lettered e m := by
  unfold dispatchOutMessage at is
  split at is
  · exact absurd is (go_lettered none')
  · cases pushed : w.pool.pushMessage msg.to' msg with
    | noQueue => rwa [pushed] at is
    | _ =>
        simp only [pushed] at is
        exact absurd is (go_lettered (show letter (.check msg.to' next) = none from none'))

theorem dispatchSignal_lettered {goal : Goal} {id : ℕ} {doneJob : List ℕ} {e : ℕ} {m : Message D}
    (is : (w.dispatchSignal t goal id doneJob).Lettered e m) : w.Lettered e m := by
  unfold dispatchSignal at is
  cases out : w.pool.out id with
  | none => rwa [out] at is
  | some msg =>
      simp only [out] at is
      split at is
      · cases pushed : (w.pool.takeOut id).pushMessage msg.to' msg with
        | noQueue => rwa [pushed] at is
        | _ =>
            simp only [pushed] at is
            exact absurd is (go_lettered rfl)
      · exact is

theorem Signed.carry (signed : w.Signed) (out : w'.pool.Signed)
    (same : w'.exclusives = w.exclusives) (lettered : ∀ e m, w'.Lettered e m → w.Lettered e m) :
    w'.Signed where
  out := out
  sending := by
    simp only [services, same]
    exact signed.sending
  acquiring := by
    simp only [services, same]
    exact signed.acquiring
  lettered := by
    intro e m is
    simp only [services, same]
    exact signed.lettered e m (lettered e m is)

@[simp] theorem letter_afterSchedule (goal : Goal) :
    letter (afterSchedule goal : Phase D) = none := by
  cases goal <;> rfl

theorem dispatchOutMessage_exclusives {id : ℕ} {msg : Message D} {next : Phase D} :
    (w.dispatchOutMessage t id msg next).exclusives = w.exclusives := by
  unfold dispatchOutMessage
  split
  · simp [go, dispatchScheduleMessage_exclusives]
  · split <;> rfl

theorem dispatchSignal_exclusives {goal : Goal} {id : ℕ} {doneJob : List ℕ} :
    (w.dispatchSignal t goal id doneJob).exclusives = w.exclusives := by
  unfold dispatchSignal
  split
  · rfl
  · split
    · dsimp only
      split <;> simp [go, setPool, fail]
    · rfl

theorem Signed.keep (signed : w.Signed) (out : w'.pool.Signed)
    (same : w'.exclusives = w.exclusives) (owner : w'.owner = w.owner) : w'.Signed :=
  signed.carry out same fun _ _ ⟨phase, owns, has⟩ => ⟨phase, owner ▸ owns, has⟩

/-- One exclusive thread changes, and the rest is as in `Signed.carry`. -/
theorem Signed.setExclusive (signed : w.Signed) {e : ℕ} {thread : ExclusiveThread D}
    (out : w'.pool.Signed) (same : w'.exclusives = (w.setExclusive e thread).exclusives)
    (service : thread.service = (w.exclusives e).service)
    (sending : ∀ m ∈ thread.sending, m.from' = w.services e)
    (acquiring : ∀ m, thread.stage = .acquiring (some m) → m.from' = w.services e)
    (lettered : ∀ d m, w'.Lettered d m → m.from' = w.services d) : w'.Signed := by
  have services : w'.services = w.services := by
    rw [← services_setExclusive e thread service]
    exact congrArg (fun threads e => (threads e : ExclusiveThread D).service) same
  have at' : ∀ d, w'.exclusives d = if d = e then thread else w.exclusives d := by
    intro d
    rw [same]
    exact Function.update_apply _ _ _ _
  refine ⟨out, ?_, ?_, ?_⟩
  · intro d m member
    rw [services]
    rw [at'] at member
    split at member
    · rename_i own
      exact own ▸ sending m member
    · exact signed.sending d m member
  · intro d m is
    rw [services]
    rw [at'] at is
    split at is
    · rename_i own
      exact own ▸ acquiring m is
    · exact signed.acquiring d m is
  · rw [services]
    exact lettered

theorem Signed.sendingTurn (signed : w.Signed) {e left : ℕ} {blocked : SendingBlocked} :
    (w.sendingTurn e left blocked).Signed := by
  unfold World.sendingTurn
  split
  · exact signed.carry signed.out rfl fun _ _ => id
  · rename_i msg rest has
    have all : ∀ m ∈ msg :: rest, m.from' = w.services e := has ▸ signed.sending e
    have turned : ∀ m ∈ rest ++ [msg], m.from' = w.services e := by
      intro m member
      exact all m (by simpa [or_comm] using member)
    have left' : ∀ m ∈ rest, m.from' = w.services e :=
      fun m member => all m (List.mem_cons_of_mem _ member)
    have none' : ∀ {v : World D} {next : Phase D}, letter next = none → ∀ d m,
        (v.go (.exclusive e) next).Lettered d m → m.from' = w.services d :=
      fun none' d m is => absurd is (go_lettered none')
    have stage : ∀ m, (w.exclusives e).stage = .acquiring (some m) → m.from' = w.services e :=
      signed.acquiring e
    dsimp only
    split
    · exact signed.setExclusive signed.out rfl rfl turned stage (none' rfl)
    · cases pushed : w.pool.pushMessage msg.to' msg with
      | succ pool =>
          exact signed.setExclusive (signed.out.pushed pushed) rfl rfl left' stage (none' rfl)
      | blocked => exact signed.setExclusive signed.out rfl rfl turned stage (none' rfl)
      | dead => exact signed.setExclusive signed.out rfl rfl left' stage (none' rfl)
      | noQueue => exact signed.carry signed.out rfl fun _ _ => id

theorem Signed.ownerStep (signed : w.Signed) {phase : Phase D} (owns : w.owner = some (t, phase))
    (is : w.ownerStep config t phase = some w') : w'.Signed := by
  unfold World.ownerStep at is
  split at is
  case h_4 id doneJob =>
    cases is
    split
    · exact signed.carry (dispatchSignal_signed signed.out) dispatchSignal_exclusives
        fun _ _ => dispatchSignal_lettered
    · split
      · exact signed.carry signed.out rfl fun e m is => absurd is (go_lettered rfl)
      · exact signed.carry (dispatchOutMessage_signed signed.out.takeOut)
          dispatchOutMessage_exclusives fun _ _ => dispatchOutMessage_lettered rfl
  case h_6 to' next =>
    cases is
    refine signed.carry (wake_signed signed.out) (wake_exclusives _) ?_
    rintro e m ⟨phase, owns', has⟩
    cases owns'
    exact ⟨_, owns, has⟩
  case h_13 e msg =>
    cases is
    exact signed.carry (dispatchOutMessage_signed signed.out) dispatchOutMessage_exclusives
      fun _ _ => dispatchOutMessage_lettered rfl
  case h_5 goal id doneJob =>
    cases is
    split
    all_goals refine signed.carry ?_ ?_ fun e m is => absurd is (go_lettered rfl)
    all_goals simp [go, setPool, signed.out.statusSet]
  case h_16 e left blocked =>
    cases is
    exact signed.sendingTurn
  case h_18 e =>
    cases is
    have same : ∀ u : World D, u.exclusives = (w.setExclusive e
        { w.exclusives e with stage := .body }).exclusives → u.pool = w.pool →
        u.owner = none → u.Signed := by
      intro u same pool free
      refine signed.setExclusive (pool ▸ signed.out) same rfl (signed.sending e) ?_ ?_
      · rintro m ⟨⟩
      · rintro d m ⟨phase, owns, -⟩
        rw [free] at owns
        cases owns
    exact same _ rfl rfl rfl
  case h_19 => cases is
  all_goals cases is
  all_goals repeat' split
  all_goals refine signed.carry signed.out ?_ fun e m is => ?_
  all_goals first
    | exact absurd is (go_lettered (by simp [letter]))
    | exact is
    | (obtain ⟨phase, ⟨⟩, has⟩ := is)
    | simp [go, setSchedule, setWorker, completeJob, fail]

theorem Signed.call (signed : w.Signed) {id : ℕ} {c : Call D} (runs : w.runs t = some id)
    (is : w.call config t id c = some w') : w'.Signed := by
  cases c <;> simp only [World.call] at is
  case recv =>
    split at is
    · cases is; exact signed
    · rename_i m fromQueue pool popped
      have kept := signed.out.popped popped
      split at is <;> cases is <;> exact signed.keep kept rfl rfl
  case receipt => cases is; exact signed.keep signed.out.readReceipt rfl rfl
  case send m =>
    split at is
    · cases is; exact signed
    · rename_i pool accepted
      cases is
      exact signed.keep (signed.out.sent (m := { m with from' := id }) rfl accepted) rfl rfl
  case post m =>
    split at is
    · cases is
    · rename_i e
      split at is <;> cases is
      · refine signed.setExclusive signed.out rfl rfl ?_ (signed.acquiring e) signed.lettered
        intro n member
        rcases List.mem_append.mp member with before | last
        · exact signed.sending e n before
        · rw [List.mem_singleton.mp last]
          exact runs_exclusive runs
      · exact signed
  case init sid ok =>
    split at is
    · split at is <;> cases is
      · exact signed.keep (signed.out.same fun x => Pool.out_of_map (w.pool.get_init sid x)
          fun _ => rfl) rfl rfl
      · exact signed.keep signed.out.delete rfl rfl
    · cases is
  case close sid =>
    split at is
    · split at is <;> cases is
      · exact signed.keep signed.out.delete rfl rfl
      · exact signed
    · cases is
  case yield =>
    split at is
    · cases is
      exact signed.keep signed.out.statusSet rfl rfl
    · rename_i e
      split at is <;> cases is
      · refine signed.setExclusive signed.out.takeOut rfl rfl (signed.sending e) ?_
          signed.lettered
        intro m held
        have out : w.pool.out id = some m := by injection held
        rw [signed.out id m out]
        exact runs_exclusive runs
      · exact signed
  case quit =>
    split at is
    · split at is <;> cases is
      · exact signed.keep signed.out.statusSet rfl rfl
      · exact signed.keep signed.out.statusSet.sendSignal rfl rfl
    · cases is
      refine signed.setExclusive signed.out rfl rfl (signed.sending _) ?_ signed.lettered
      rintro m ⟨⟩

/-- A step keeps the senders in the messages. -/
theorem Signed.next (signed : w.Signed) {a : Action D} (is : w.next config a = some w') :
    w'.Signed := by
  cases a with
  | call t c =>
      obtain ⟨id, runs, called⟩ := Option.bind_eq_some_iff.mp is
      exact signed.call runs called
  | owner =>
      obtain ⟨⟨t, phase⟩, owns, moved⟩ := Option.bind_eq_some_iff.mp is
      exact signed.ownerStep owns moved
  | acquire t =>
      cases t with
      | worker i =>
          simp only [World.next, World.acquire] at is
          split at is <;> cases is
          case h_1 => exact signed.carry signed.out rfl fun e m is => absurd is (go_lettered rfl)
          case h_3 => exact signed.carry signed.out rfl fun e m is => absurd is (go_lettered rfl)
          all_goals exact signed.keep signed.out rfl rfl
      | exclusive e =>
          simp only [World.next, World.acquire] at is
          split at is <;> cases is
          rename_i out stage free
          refine signed.setExclusive signed.out rfl rfl (signed.sending e) (by rintro m ⟨⟩) ?_
          rintro d m ⟨phase, owns, has⟩
          cases owns
          cases out with
          | none => cases has
          | some msg =>
              cases has
              exact signed.acquiring e _ stage
  | _ =>
      simp only [World.next] at is
      repeat' split at is
      all_goals cases is
      all_goals first
        | exact signed.keep signed.out rfl rfl
        | exact signed.keep signed.out.statusSet rfl rfl

end World

end WindLtask.Runtime
