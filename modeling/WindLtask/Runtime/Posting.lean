import WindLtask.Runtime.Ledger

/-!
# The messages of an exclusive service

`dispatch_exclusive_sending` turns the queue `sending` of an exclusive thread around:
a message whose receiver is blocked goes to the end, and so do all later ones to the
same receiver.  When all turns are done the messages that are left are in their order,
and those of one receiver have been delivered in their order before.
-/

namespace WindLtask.Runtime

open Lib

variable {D : Type}

namespace SendingBlocked

variable {S : SendingBlocked} {id other : ℕ}

theorem check_mark (S : SendingBlocked) (id : ℕ) : (S.mark id).check id = true := by
  unfold mark check
  split
  · rename_i full
    simp [full]
  · split
    · simp at *
    · split <;> simp

/-- Who is blocked stays blocked. -/
theorem check_mark_of_check (blocked : S.check other = true) :
    (S.mark id).check other = true := by
  unfold check at blocked
  unfold mark check
  split at blocked
  · cases blocked
  · split
    · rename_i full
      simp [full]
    · split at blocked
      · rename_i many
        have many' : S.n + 1 > sendingBlocked := by omega
        simp [many']
      · simp only [decide_eq_true_eq] at blocked
        simp [blocked]

end SendingBlocked

/-- The receivers that have been found blocked. -/
def Phase.blocked : Phase D → Option SendingBlocked
  | .sending _ blocked => some blocked
  | .check _ next => next.blocked
  | _ => none

namespace World

variable {config : Config} {w w' : World D} {t : Thread} {e : ℕ}

/-- The exclusive thread that owns the schedule, its turns left and who is blocked. -/
def sender (w : World D) : Option (ℕ × ℕ × Option SendingBlocked) :=
  match w.owner with
  | some (.exclusive e, phase) => some (e, phase.turns, phase.blocked)
  | _ => none

/-- What is so of an exclusive thread while it owns the schedule. -/
structure Turning (w : World D) : Prop where
  owning : ∀ e turns blocked, w.sender = some (e, turns, blocked) →
    (w.exclusives e).stage = .owning
  turns : ∀ e turns blocked, w.sender = some (e, turns, blocked) →
    turns ≤ (w.exclusives e).sending.length
  /-- The receivers of the messages that have been put back are blocked. -/
  back : ∀ e turns blocked, w.sender = some (e, turns, some blocked) →
    ∀ m ∈ (w.exclusives e).sending.drop turns, blocked.check m.to' = true

/-- The turns that an exclusive thread has left. -/
def turnsOf (w : World D) (e : ℕ) : ℕ :=
  match w.sender with
  | some (d, turns, _) => if d = e then turns else 0
  | none => 0

/-- The messages that an exclusive thread has still to send, oldest first for each receiver. -/
def pending (w : World D) (e : ℕ) : List (Message D) :=
  (w.exclusives e).sending.drop (w.turnsOf e) ++ (w.exclusives e).sending.take (w.turnsOf e)

/-- The messages that an exclusive service posts in a step. -/
def posted (config : Config) (w : World D) (e : ℕ) : Action D → List (Message D)
  | .call (.exclusive d) (.post m) =>
      if d = e ∧ (w.exclusives e).sending.length < config.queueSending - 1 then
        [{ m with from' := w.services e }]
      else []
  | _ => []

/-- The messages that leave `sending` for good in a step. -/
def settled (w : World D) (e : ℕ) : Action D → List (Message D)
  | .owner =>
      match w.owner with
      | some (.exclusive d, .sending (_ + 1) blocked) =>
          if d = e then
            match (w.exclusives e).sending with
            | [] => []
            | msg :: _ =>
                if blocked.check msg.to' then []
                else
                  match w.pool.pushMessage msg.to' msg with
                  | .succ _ | .dead => [msg]
                  | .blocked | .noQueue => []
          else []
      | _ => []
  | _ => []

/-- The messages to one receiver. -/
def toward (y : ℕ) (ms : List (Message D)) : List (Message D) := ms.filter (·.to' = y)

@[simp] theorem toward_append (y : ℕ) (ms more : List (Message D)) :
    toward y (ms ++ more) = toward y ms ++ toward y more := List.filter_append _ _

theorem pending_zero (none' : w.turnsOf e = 0) : w.pending e = (w.exclusives e).sending := by
  simp [pending, none']

theorem turnsOf_other (other : ∀ turns blocked, w.sender ≠ some (e, turns, blocked)) :
    w.turnsOf e = 0 := by
  unfold turnsOf
  split
  · rename_i d turns blocked is
    split
    · rename_i own
      exact absurd (own ▸ is) (other turns blocked)
    · rfl
  · rfl

/-- The books of the exclusive threads after a step. -/
structure Posts (config : Config) (w w' : World D) (a : Action D) : Prop where
  turning : w'.Turning
  balance : ∀ e y, toward y (w.pending e ++ w.posted config e a) =
    toward y (w.settled e a ++ w'.pending e)

variable {a : Action D}

/-- A step that does not touch what the books are about. -/
theorem Turning.calm (turning : w.Turning) (same : w'.exclusives = w.exclusives)
    (sender : w'.sender = w.sender) (posted : ∀ e, w.posted config e a = [])
    (settled : ∀ e, w.settled e a = []) : Posts config w w' a where
  turning := by
    refine ⟨?_, ?_, ?_⟩
    all_goals rw [sender, same]
    · exact turning.owning
    · exact turning.turns
    · exact turning.back
  balance := by
    intro e y
    have pending : w'.pending e = w.pending e := by simp only [World.pending, turnsOf, same, sender]
    rw [pending, posted, settled, List.append_nil, List.nil_append]

theorem exclusives_of_set {v : World D} {thread : ExclusiveThread D}
    (same : v.exclusives = (w.setExclusive e thread).exclusives) (d : ℕ) :
    v.exclusives d = if d = e then thread else w.exclusives d := by
  rw [same]
  exact Function.update_apply _ _ _ _

/-- The exclusive thread that owns the schedule has changed its messages. -/
theorem Turning.turned (turning : w.Turning) {v : World D} {thread : ExclusiveThread D}
    {n left : ℕ} {b : Option SendingBlocked} {blocked : SendingBlocked}
    (owned : w.sender = some (e, n, b))
    (same : v.exclusives = (w.setExclusive e thread).exclusives)
    (stage : thread.stage = (w.exclusives e).stage)
    (sender : v.sender = some (e, left, some blocked)) (le : left ≤ thread.sending.length)
    (back : ∀ m ∈ thread.sending.drop left, blocked.check m.to' = true) :
    v.Turning ∧ v.pending e = thread.sending.drop left ++ thread.sending.take left ∧
      ∀ d, d ≠ e → v.pending d = w.pending d := by
  have at' := exclusives_of_set same
  have own : v.exclusives e = thread := (at' e).trans (if_pos rfl)
  refine ⟨⟨?_, ?_, ?_⟩, ?_, ?_⟩
  · intro d turns blocked' is
    obtain ⟨rfl, -⟩ := Prod.mk.inj (Option.some.inj (sender.symm.trans is))
    rw [own, stage]
    exact turning.owning e n b owned
  · intro d turns blocked' is
    cases sender.symm.trans is
    rw [own]
    exact le
  · intro d turns blocked' is
    cases sender.symm.trans is
    rw [own]
    exact back
  · have turns : v.turnsOf e = left := by simp [turnsOf, sender]
    rw [World.pending, turns, own]
  · intro d other
    have before : w.turnsOf d = 0 := turnsOf_other fun turns blocked is => by
      rw [owned] at is
      cases is
      exact other rfl
    have after : v.turnsOf d = 0 := turnsOf_other fun turns blocked is => by
      rw [sender] at is
      cases is
      exact other rfl
    rw [pending_zero before, pending_zero after, at', if_neg other]

theorem settled_other {d left : ℕ} {blocked : SendingBlocked}
    (owns : w.owner = some (.exclusive e, .sending left blocked)) (other : d ≠ e) :
    w.settled d .owner = [] := by
  cases left <;> simp [settled, owns, Ne.symm other]

/-- A message is put back behind the others. -/
theorem Turning.putBack (turning : w.Turning) {left : ℕ} {blocked blocked' : SendingBlocked}
    {msg : Message D} {rest : List (Message D)}
    (owns : w.owner = some (.exclusive e, .sending (left + 1) blocked))
    (has : (w.exclusives e).sending = msg :: rest) (settled : w.settled e .owner = [])
    (more : ∀ id, blocked.check id = true → blocked'.check id = true)
    (held : blocked'.check msg.to' = true) {v : World D}
    (same : v.exclusives =
      (w.setExclusive e { w.exclusives e with sending := rest ++ [msg] }).exclusives)
    (sender : v.sender = some (e, left, some blocked')) : Posts config w v .owner := by
  have owned : w.sender = some (e, left + 1, some blocked) := by
    simp [World.sender, owns, Phase.turns, Phase.blocked]
  have le : left ≤ rest.length := by
    have turns := turning.turns _ _ _ owned
    rw [has] at turns
    exact Nat.le_of_succ_le_succ turns
  have drop : (rest ++ [msg]).drop left = rest.drop left ++ [msg] :=
    List.drop_append_of_le_length le
  have take : (rest ++ [msg]).take left = rest.take left := List.take_append_of_le_length le
  have longer : left ≤ (rest ++ [msg]).length := by
    rw [List.length_append]
    exact Nat.le_add_right_of_le le
  have back : ∀ m ∈ (rest ++ [msg]).drop left, blocked'.check m.to' = true := by
    intro m member
    rw [drop, List.mem_append, List.mem_singleton] at member
    rcases member with before | rfl
    · exact more _ (turning.back _ _ _ owned m (by rwa [has, List.drop_succ_cons]))
    · exact held
  obtain ⟨after, pending, others⟩ := turning.turned owned same rfl sender longer back
  refine ⟨after, ?_⟩
  intro d y
  by_cases own : d = e
  · subst own
    rw [pending, settled, drop, take]
    have before : w.pending d = rest.drop left ++ msg :: rest.take left := by
      have turns : w.turnsOf d = left + 1 := by simp [turnsOf, owned]
      rw [World.pending, turns, has, List.drop_succ_cons, List.take_succ_cons]
    rw [before]
    simp [posted]
  · rw [others d own, settled_other owns own]
    simp [posted]

/-- A message is delivered, or its receiver is dead. -/
theorem Turning.sendOff (turning : w.Turning) {left : ℕ} {blocked : SendingBlocked}
    {msg : Message D} {rest : List (Message D)}
    (owns : w.owner = some (.exclusive e, .sending (left + 1) blocked))
    (has : (w.exclusives e).sending = msg :: rest) (free : blocked.check msg.to' = false)
    (settled : w.settled e .owner = [msg]) {v : World D}
    (same : v.exclusives =
      (w.setExclusive e { w.exclusives e with sending := rest }).exclusives)
    (sender : v.sender = some (e, left, some blocked)) : Posts config w v .owner := by
  have owned : w.sender = some (e, left + 1, some blocked) := by
    simp [World.sender, owns, Phase.turns, Phase.blocked]
  have le : left ≤ rest.length := by
    have turns := turning.turns _ _ _ owned
    rw [has] at turns
    exact Nat.le_of_succ_le_succ turns
  have back : ∀ m ∈ rest.drop left, blocked.check m.to' = true := by
    intro m member
    exact turning.back _ _ _ owned m (by rwa [has, List.drop_succ_cons])
  obtain ⟨after, pending, others⟩ := turning.turned owned same rfl sender le back
  refine ⟨after, ?_⟩
  intro d y
  by_cases own : d = e
  · subst own
    have before : w.pending d = rest.drop left ++ msg :: rest.take left := by
      have turns : w.turnsOf d = left + 1 := by simp [turnsOf, owned]
      rw [World.pending, turns, has, List.drop_succ_cons, List.take_succ_cons]
    rw [before, pending, settled]
    by_cases here : msg.to' = y
    · have none' : toward y (rest.drop left) = [] := by
        apply List.filter_eq_nil_iff.mpr
        intro m member same'
        have same' : m.to' = y := by simpa using same'
        rw [← here] at same'
        have held := back m member
        rw [same', free] at held
        cases held
      unfold toward at none' ⊢
      simp [posted, none', here]
    · simp [posted, toward, here]
  · rw [others d own, settled_other owns own]
    simp [posted]

theorem sender_of_owner {v : World D} (same : v.owner = w.owner) : v.sender = w.sender := by
  unfold sender
  rw [same]

theorem Turning.sendingTurn (turning : w.Turning) {left : ℕ} {blocked : SendingBlocked}
    (owns : w.owner = some (.exclusive e, .sending (left + 1) blocked)) :
    Posts config w (w.sendingTurn e left blocked) .owner := by
  have alone : ∀ {ms : List (Message D)}, w.settled e .owner = ms →
      ∀ d, d = e ∨ w.settled d .owner = [] := by
    intro ms _ d
    by_cases own : d = e
    · exact .inl own
    · exact .inr (settled_other owns own)
  have quiet : w.settled e .owner = [] → ∀ d, w.settled d .owner = [] := by
    intro none' d
    rcases alone none' d with rfl | settled
    · exact none'
    · exact settled
  unfold World.sendingTurn
  cases has : (w.exclusives e).sending with
  | nil =>
      have none' : w.settled e .owner = [] := by simp [settled, owns, has]
      exact turning.calm rfl rfl (fun _ => rfl) (quiet none')
  | cons msg rest =>
      dsimp only
      split
      · rename_i held
        exact turning.putBack owns has (by simp [settled, owns, has, held]) (fun _ => id) held
          rfl rfl
      · rename_i free
        have free : blocked.check msg.to' = false := by simpa using free
        cases pushed : w.pool.pushMessage msg.to' msg with
        | succ pool =>
            exact turning.sendOff owns has free (by simp [settled, owns, has, free, pushed]) rfl rfl
        | blocked =>
            exact turning.putBack owns has (by simp [settled, owns, has, free, pushed])
              (fun _ => SendingBlocked.check_mark_of_check) (SendingBlocked.check_mark _ _) rfl rfl
        | dead =>
            exact turning.sendOff owns has free (by simp [settled, owns, has, free, pushed]) rfl rfl
        | noQueue =>
            have none' : w.settled e .owner = [] := by simp [settled, owns, has, pushed]
            exact turning.calm rfl rfl (fun _ => rfl) (quiet none')

@[simp] theorem turns_afterSchedule (goal : Goal) : (afterSchedule goal : Phase D).turns = 0 := by
  cases goal <;> rfl

@[simp] theorem blocked_afterSchedule (goal : Goal) :
    (afterSchedule goal : Phase D).blocked = none := by
  cases goal <;> rfl

theorem sender_go {phase next : Phase D} (owns : w.owner = some (t, phase))
    (turns : next.turns = phase.turns) (blocked : next.blocked = phase.blocked) (v : World D) :
    (v.go t next).sender = w.sender := by
  unfold sender
  rw [owns]
  cases t with
  | worker i => rfl
  | exclusive e =>
      change some (e, next.turns, next.blocked) = some (e, phase.turns, phase.blocked)
      rw [turns, blocked]

theorem dispatchOutMessage_sender {v : World D} {phase next : Phase D}
    (owns : w.owner = some (t, phase)) (same : v.owner = w.owner) {id : ℕ} {msg : Message D}
    (turns : next.turns = phase.turns) (blocked : next.blocked = phase.blocked) :
    (v.dispatchOutMessage t id msg next).sender = w.sender := by
  unfold dispatchOutMessage
  split
  · exact sender_go owns turns blocked _
  · split
    · exact sender_go owns (by exact turns) (by exact blocked) _
    · exact sender_go owns (by exact turns) (by exact blocked) _
    · exact sender_go owns (by exact turns) (by exact blocked) _
    · exact sender_of_owner same

theorem dispatchSignal_sender {goal : Goal} {id : ℕ} {doneJob : List ℕ} {phase : Phase D}
    (owns : w.owner = some (t, phase)) (turns : phase.turns = 0) (blocked : phase.blocked = none) :
    (w.dispatchSignal t goal id doneJob).sender = w.sender := by
  unfold dispatchSignal
  split
  · rfl
  · split
    · dsimp only
      split
      · exact sender_go owns (by exact turns.symm) (by exact blocked.symm) _
      · exact sender_go owns (by exact turns.symm) (by exact blocked.symm) _
      · exact sender_go owns (by exact turns.symm) (by exact blocked.symm) _
      · rfl
    · rfl

/-- The owner starts or ends its turns. -/
theorem Turning.shift (turning : w.Turning) {n m : ℕ} {b c : Option SendingBlocked}
    (owned : w.sender = some (e, n, b)) {v : World D} (same : v.exclusives = w.exclusives)
    (sender : v.sender = some (e, m, c))
    (ends : n = 0 ∨ n = (w.exclusives e).sending.length)
    (ends' : m = 0 ∧ c = none ∨ m = (w.exclusives e).sending.length)
    (posted : ∀ e, w.posted config e a = []) (settled : ∀ e, w.settled e a = []) :
    Posts config w v a := by
  refine ⟨⟨?_, ?_, ?_⟩, ?_⟩
  · intro d turns blocked is
    cases sender.symm.trans is
    rw [same]
    exact turning.owning e n b owned
  · intro d turns blocked is
    cases sender.symm.trans is
    rw [same]
    rcases ends' with ⟨rfl, -⟩ | rfl
    · exact Nat.zero_le _
    · exact Nat.le_refl _
  · intro d turns blocked is
    cases sender.symm.trans is
    rw [same]
    rcases ends' with ⟨-, none'⟩ | rfl
    · cases none'
    · simp
  · intro d y
    rw [posted, settled, List.append_nil, List.nil_append]
    unfold World.pending turnsOf
    rw [same, sender, owned]
    by_cases own : e = d
    · subst own
      rcases ends with rfl | rfl <;> rcases ends' with ⟨rfl, -⟩ | rfl <;> simp
    · simp [own]

/-- An exclusive thread gives the schedule back. -/
theorem posts_release (owns : w.owner = some (.exclusive e, .release)) {v : World D}
    (same : v.exclusives =
      (w.setExclusive e { w.exclusives e with stage := .body }).exclusives)
    (free : v.owner = none) : Posts config w v .owner := by
  have none' : v.sender = none := by simp [sender, free]
  have turns : ∀ d, v.turnsOf d = 0 := by intro d; simp [turnsOf, none']
  have before : ∀ d, w.turnsOf d = 0 := by
    intro d
    simp [turnsOf, sender, owns, Phase.turns]
  refine ⟨⟨?_, ?_, ?_⟩, ?_⟩
  · intro d turns blocked is
    rw [none'] at is
    cases is
  · intro d turns blocked is
    rw [none'] at is
    cases is
  · intro d turns blocked is
    rw [none'] at is
    cases is
  · intro d y
    have kept : (v.exclusives d).sending = (w.exclusives d).sending := by
      rw [exclusives_of_set same]
      split
      · rename_i own
        rw [own]
      · rfl
    rw [pending_zero (turns d), pending_zero (before d), kept]
    simp [posted, settled, owns]

theorem Turning.ownerStep (turning : w.Turning) {phase : Phase D} (owns : w.owner = some (t, phase))
    (is : w.ownerStep config t phase = some w') : Posts config w w' .owner := by
  unfold World.ownerStep at is
  split at is
  case h_4 id doneJob =>
    have settled : ∀ e, w.settled e .owner = [] := by intro e; simp [World.settled, owns]
    cases is
    split
    · exact turning.calm dispatchSignal_exclusives (dispatchSignal_sender owns rfl rfl)
        (fun _ => rfl) settled
    · split
      · exact turning.calm rfl (sender_go owns (by rfl) (by rfl) _) (fun _ => rfl) settled
      · exact turning.calm dispatchOutMessage_exclusives
          (dispatchOutMessage_sender owns (by rfl) (by rfl) (by rfl)) (fun _ => rfl) settled
  case h_6 to' next =>
    cases is
    exact turning.calm (wake_exclusives _) (sender_go owns (by rfl) (by rfl) _) (fun _ => rfl)
      fun e => by simp [World.settled, owns]
  case h_13 e msg =>
    cases is
    exact turning.calm dispatchOutMessage_exclusives
      (dispatchOutMessage_sender owns (by rfl) (by rfl) (by rfl)) (fun _ => rfl) fun e => by simp [World.settled, owns]
  case h_14 e =>
    cases is
    have owned : w.sender = some (e, 0, none) := by
      simp [sender, owns, Phase.turns, Phase.blocked]
    exact turning.shift owned rfl rfl (.inl rfl) (.inr rfl) (fun _ => rfl)
      fun d => by simp [World.settled, owns]
  case h_15 e blocked =>
    cases is
    have owned : w.sender = some (e, 0, some blocked) := by
      simp [sender, owns, Phase.turns, Phase.blocked]
    exact turning.shift owned rfl rfl (.inl rfl) (.inl ⟨rfl, rfl⟩) (fun _ => rfl)
      fun d => by simp [World.settled, owns]
  case h_16 e left blocked =>
    cases is
    exact turning.sendingTurn owns
  case h_18 e =>
    cases is
    exact posts_release owns rfl rfl
  case h_19 => cases is
  all_goals
    have settled : ∀ e, w.settled e .owner = [] := by intro e; simp [World.settled, owns]
    cases is
  all_goals repeat' split
  all_goals refine turning.calm ?_ ?_ (fun _ => rfl) settled
  all_goals first
    | rfl
    | exact sender_go owns (by simp [Phase.turns]) (by simp [Phase.blocked]) _
    | exact sender_of_owner rfl
    | simp [sender, owns]
    | simp [go, setPool]

/-- An exclusive thread changes while it does not own the schedule. -/
theorem Turning.elsewhere (turning : w.Turning)
    (other : ∀ turns blocked, w.sender ≠ some (e, turns, blocked)) {thread : ExclusiveThread D}
    {v : World D} (same : v.exclusives = (w.setExclusive e thread).exclusives)
    (sender : v.sender = w.sender) (settled : ∀ d, w.settled d a = [])
    (own : thread.sending = (w.exclusives e).sending ++ w.posted config e a)
    (others : ∀ d, d ≠ e → w.posted config d a = []) : Posts config w v a := by
  have at' := exclusives_of_set same
  have apart : ∀ d turns blocked, v.sender = some (d, turns, blocked) →
      w.sender = some (d, turns, blocked) ∧ v.exclusives d = w.exclusives d := by
    intro d turns blocked is
    rw [sender] at is
    refine ⟨is, (at' d).trans (if_neg ?_)⟩
    rintro rfl
    exact other turns blocked is
  refine ⟨⟨?_, ?_, ?_⟩, ?_⟩
  · intro d turns blocked is
    obtain ⟨owned, kept⟩ := apart d turns blocked is
    exact kept ▸ turning.owning d turns blocked owned
  · intro d turns blocked is
    obtain ⟨owned, kept⟩ := apart d turns blocked is
    exact kept ▸ turning.turns d turns blocked owned
  · intro d turns blocked is
    obtain ⟨owned, kept⟩ := apart d turns _ is
    exact kept ▸ turning.back d turns blocked owned
  · intro d y
    rw [settled, List.nil_append]
    have turns : v.turnsOf d = w.turnsOf d := by simp only [turnsOf, sender]
    by_cases here : d = e
    · subst here
      have none' := turnsOf_other other
      rw [pending_zero none', pending_zero (turns.trans none'), at', if_pos rfl, own]
    · rw [others d here, List.append_nil]
      unfold World.pending
      rw [turns, at', if_neg here]

theorem Turning.not_owner (turning : w.Turning) (stage : (w.exclusives e).stage ≠ .owning) :
    ∀ turns blocked, w.sender ≠ some (e, turns, blocked) :=
  fun turns blocked is => stage (turning.owning e turns blocked is)

theorem runs_body {id : ℕ} (runs : w.runs (.exclusive e) = some id) :
    (w.exclusives e).stage = .body := by
  simp only [World.runs] at runs
  split at runs
  · assumption
  · cases runs

theorem posted_call {c : Call D} (other : ∀ m, c ≠ .post m) (d : ℕ) :
    w.posted config d (.call t c) = [] := by
  cases t <;> cases c <;> first
    | rfl
    | exact absurd rfl (other _)

theorem Turning.call (turning : w.Turning) {id : ℕ} {c : Call D} (runs : w.runs t = some id)
    (is : w.call config t id c = some w') : Posts config w w' (.call t c) := by
  have settled : ∀ d, w.settled d (.call t c) = [] := fun _ => rfl
  have away : ∀ {e}, t = .exclusive e → ∀ turns blocked, w.sender ≠ some (e, turns, blocked) := by
    rintro e rfl
    exact turning.not_owner (by rw [runs_body runs]; simp)
  cases c <;> simp only [World.call] at is
  case post m =>
    split at is
    · cases is
    · rename_i e
      have named : id = w.services e := runs_exclusive runs
      split at is <;> cases is
      · rename_i room
        refine turning.elsewhere (away rfl) rfl rfl settled ?_ ?_
        · simp [posted, room, named]
        · intro d other
          simp [posted, Ne.symm other]
      · rename_i full
        refine turning.calm rfl rfl ?_ settled
        intro d
        simp only [posted]
        split
        · rename_i both
          obtain ⟨rfl, room⟩ := both
          exact absurd room full
        · rfl
  case yield =>
    split at is
    · cases is
      exact turning.calm rfl rfl (fun _ => rfl) settled
    · split at is <;> cases is
      · exact turning.elsewhere (away rfl) rfl rfl settled (List.append_nil _).symm fun _ _ => rfl
      · exact turning.calm rfl rfl (fun _ => rfl) settled
  case quit =>
    split at is
    · split at is <;> cases is <;> exact turning.calm rfl rfl (fun _ => rfl) settled
    · cases is
      exact turning.elsewhere (away rfl) rfl rfl settled (List.append_nil _).symm fun _ _ => rfl
  all_goals
    repeat' split at is
  all_goals cases is
  all_goals exact turning.calm rfl rfl (posted_call (by simp)) settled

theorem posts_acquire (free : w.owner = none) {phase : Phase D} (turns : phase.turns = 0)
    (blocked : phase.blocked = none) :
    Posts config w ((w.setExclusive e { w.exclusives e with stage := .owning }).go
      (.exclusive e) phase) (.acquire (.exclusive e)) := by
  have none' : w.sender = none := by simp [sender, free]
  have before : ∀ d, w.turnsOf d = 0 := by intro d; simp [turnsOf, none']
  set v := (w.setExclusive e { w.exclusives e with stage := .owning }).go (.exclusive e) phase
  have owned : v.sender = some (e, 0, none) := by
    change some (e, phase.turns, phase.blocked) = _
    rw [turns, blocked]
  have after : ∀ d, v.turnsOf d = 0 := by intro d; simp [turnsOf, owned]
  have at' := exclusives_of_set (w := w) (v := v) rfl
  refine ⟨⟨?_, ?_, ?_⟩, ?_⟩
  · intro d turns blocked is
    cases owned.symm.trans is
    rw [at', if_pos rfl]
  · intro d turns blocked is
    cases owned.symm.trans is
    exact Nat.zero_le _
  · intro d turns blocked is
    cases owned.symm.trans is
  · intro d y
    have kept : (v.exclusives d).sending = (w.exclusives d).sending := by
      rw [at']
      split
      · rename_i own
        rw [own]
      · rfl
    rw [pending_zero (after d), pending_zero (before d), kept]
    simp [posted, settled]

/-- What one step does to the books of the exclusive threads. -/
theorem Turning.next (turning : w.Turning) (is : w.next config a = some w') :
    Posts config w w' a := by
  cases a with
  | call t c =>
      obtain ⟨id, runs, called⟩ := Option.bind_eq_some_iff.mp is
      exact turning.call runs called
  | owner =>
      obtain ⟨⟨t, phase⟩, owns, moved⟩ := Option.bind_eq_some_iff.mp is
      exact turning.ownerStep owns moved
  | acquire t =>
      cases t with
      | worker i =>
          simp only [World.next, World.acquire] at is
          split at is <;> cases is
          all_goals refine turning.calm rfl ?_ (fun _ => rfl) fun _ => rfl
          all_goals simp [sender, go, setWorker, *]
      | exclusive e =>
          simp only [World.next, World.acquire] at is
          split at is <;> cases is
          rename_i out stage free
          refine posts_acquire free ?_ ?_
          · cases out <;> rfl
          · cases out <;> rfl
  | _ =>
      simp only [World.next] at is
      repeat' split at is
      all_goals cases is
      all_goals exact turning.calm rfl rfl (fun _ => rfl) fun _ => rfl

theorem dead_of_pushed {p : Pool D} {y : ℕ} {m : Message D} (pushed : p.pushMessage y m = .dead) :
    ¬ p.Alive y := by
  rintro ⟨S, found, alive⟩
  simp only [Pool.pushMessage, found, if_neg alive] at pushed
  split at pushed
  · cases pushed
  · split at pushed <;> cases pushed

theorem settled_delivered {m : Message D} (settled : m ∈ w.settled e .owner) :
    w.arrivals m.to' .owner = [m] ∨ ¬ w.pool.Alive m.to' := by
  simp only [World.settled] at settled
  split at settled
  case h_2 => cases settled
  rename_i d left blocked owns
  split at settled
  case isFalse => cases settled
  rename_i own
  subst own
  split at settled
  case h_1 => cases settled
  rename_i msg rest has
  split at settled
  case isTrue => cases settled
  rename_i free
  split at settled
  · rename_i pool pushed
    obtain rfl := List.mem_singleton.mp settled
    left
    simp [arrivals, carries, owns, has, free, Pool.takes, (Pool.pushed_spec pushed).1]
  · rename_i pushed
    obtain rfl := List.mem_singleton.mp settled
    exact .inr (dead_of_pushed pushed)
  all_goals cases settled

variable {s : Settings} {ncores : ℕ} {d : D} {start final : World D}
  {early steps : List (World D × Action D)}

theorem boot_turning (booted : boot s d = some start) : start.Turning := by
  obtain ⟨p, q, pool, rfl, -⟩ := boot_spec booted
  exact ⟨by rintro e turns blocked ⟨⟩, by rintro e turns blocked ⟨⟩,
    by rintro e turns blocked ⟨⟩⟩

theorem Turning.along (turning : w.Turning) (run : Runs config w steps final) :
    ∀ u ∈ visited steps final, u.Turning :=
  run.invariant_visited (fun _ _ => True) _ turning
    (fun _ _ _ turning _ is => (turning.next (step_next is).2).turning) fun _ _ => trivial

/--
The messages that an exclusive service posts to one receiver leave `sending` in their
order, each once; one that leaves is put into the queue of the receiver in this step, or
the receiver is dead.
-/
theorem posts_in_order (booted : boot s d = some start)
    (reached : Runs (s.load ncores) start early w) (run : Runs (s.load ncores) w steps final)
    (y : ℕ) :
    toward y (w.pending e) ++ toward y (entries (posted (s.load ncores) · e) steps) =
        toward y (entries (settled · e) steps) ++ toward y (final.pending e) ∧
      ∀ u m, (u, .owner) ∈ steps → m ∈ u.settled e .owner → m.to' = y →
        u.arrivals y .owner = [m] ∨ ¬ u.pool.Alive y := by
  have turning := ((boot_turning booted).along reached w (by simp [visited])).along run
  constructor
  · have books := run.balance (fun u => u ∈ visited steps final) (fun u => toward y (u.pending e))
      (fun u a => toward y (u.posted (s.load ncores) e a))
      (fun u a => toward y (u.settled e a))
      (by
        intro u a u' before after is
        have step := ((turning u before).next (step_next is).2).balance e y
        rwa [toward_append, toward_append] at step)
      fun _ => id
    simp only [entries, toward, List.filter_flatMap] at books ⊢
    exact books
  · rintro u m - settled rfl
    exact settled_delivered settled

def samplePost (session : ℕ) : Message Unit :=
  { from' := 2, to' := 1, session := session, type := 1, msg := none }

/-- The third message finds the queue of root full. -/
def postLabels : List (Action Unit) :=
  [.call (.exclusive 0) (.post (samplePost 1)), .call (.exclusive 0) (.post (samplePost 2)),
    .call (.exclusive 0) (.post (samplePost 3)), .call (.exclusive 0) .yield,
    .acquire (.exclusive 0)] ++ List.replicate 6 .owner

theorem posts_in_order_sample :
    ∃ (start final : World Unit) (steps : List (World Unit × Action Unit)),
      Runs (sampleSettings.load 2) start steps final ∧ steps.map Prod.snd = postLabels ∧
      final.pending 0 = [samplePost 3] ∧
      toward 1 (start.pending 0) ++ toward 1 (entries (posted (sampleSettings.load 2) · 0) steps) =
        toward 1 (entries (settled · 0) steps) ++ [samplePost 3] := by
  have followed : ((boot sampleSettings ()).bind fun w =>
      postLabels.foldlM (World.step (sampleSettings.load 2)) w).any
      (fun w => w.pending 0 = [samplePost 3]) = true := by decide +kernel
  obtain ⟨final, reached, right⟩ := Option.any_eq_true _ _ |>.mp followed
  obtain ⟨start, booted, is⟩ := Option.bind_eq_some_iff.mp reached
  obtain ⟨steps, run, same⟩ := Run.nil.follow is
  have left : final.pending 0 = [samplePost 3] := of_decide_eq_true right
  have books := (posts_in_order (e := 0) booted Run.nil run 1).1
  rw [left] at books
  exact ⟨start, final, steps, run, same, left, books⟩

end World

end WindLtask.Runtime
