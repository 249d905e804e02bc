import WindLtask.Runtime.Custody

/-!
# What a step of the owner keeps

The owner collects jobs that are done, dispatches their messages, and hands out the
jobs of the schedule.  The schedule is large enough for all services that can be in
it, because an exclusive service never is.
-/

namespace WindLtask.Runtime

open Lib

variable {D : Type}

/-! ## The room in the schedule -/

namespace Pool

theorem slot_injective {p : Pool D} {x y : ℕ} {S T : Service D} (foundS : p.get x = some S)
    (foundT : p.get y = some T) (same : p.slot x = p.slot y) : x = y := by
  obtain ⟨atS, idS⟩ := get_eq_some.mp foundS
  obtain ⟨atT, idT⟩ := get_eq_some.mp foundT
  have one : S = T := Option.some.inj (atS.symm.trans (same ▸ atT))
  rw [← idS, one, idT]

/-- No more services than slots. -/
theorem length_le_maxService {p : Pool D} {ids : List ℕ} (nodup : ids.Nodup)
    (there : ∀ id ∈ ids, ∃ S, p.get id = some S) : ids.length ≤ p.maxService := by
  have slots : (ids.map p.slot).Nodup := by
    apply nodup.map_on
    intro x inX y inY same
    obtain ⟨S, foundS⟩ := there x inX
    obtain ⟨T, foundT⟩ := there y inY
    exact slot_injective foundS foundT same
  have within : (ids.map p.slot).toFinset ⊆ Finset.range p.maxService := by
    intro slot member
    obtain ⟨id, -, rfl⟩ := List.mem_map.mp (List.mem_toFinset.mp member)
    exact Finset.mem_range.mpr (Queue.position_lt p.isPow2 id)
  have card := Finset.card_le_card within
  rwa [List.toFinset_card_of_nodup slots, List.length_map, Finset.card_range] at card

end Pool

namespace World

variable {heard hung : Prop} {config : Config} {w w' : World D} {t : Thread} {old new : Phase D}

/-- The tickets outside the owner, with those of the schedule apart. -/
def unscheduledTickets (config : Config) (w : World D) : Multiset (ℕ × Standing) :=
  w.workerTickets config + slips w.signals .signalled + signalSlips (rootQueue w.pool)

theorem unowned_split (others : Multiset (ℕ × Standing)) :
    others + w.unownedTickets config =
      slips w.schedule .waiting + (others + w.unscheduledTickets config) := by
  unfold unownedTickets unscheduledTickets
  abel

theorem schedule_split : w.tickets config =
    slips w.schedule .waiting + (w.ownerTickets + w.unscheduledTickets config) := by
  unfold tickets unscheduledTickets
  abel

theorem slips_le {tickets others : Multiset (ℕ × Standing)} {ids : List ℕ} {standing : Standing}
    (is : tickets = slips ids standing + others) (single : (tickets.map Prod.fst).Nodup) :
    ids.Nodup ∧ ∀ id ∈ ids, (id, standing) ∈ tickets := by
  rw [is] at single ⊢
  constructor
  · rw [Multiset.map_add, map_fst_slips] at single
    exact Multiset.coe_nodup.mp (Multiset.nodup_of_le (Multiset.le_add_right _ _) single)
  · intro id member
    exact Multiset.mem_add.mpr (.inl (Multiset.mem_map_of_mem _ member))

/-- There is room in the schedule for a service that is not in it. -/
theorem Sound.scheduleRoom (sound : w.Sound heard hung config) (exclusive : 0 < config.exclusive)
    {id : ℕ} {S : Service D} (found : w.pool.get id = some S) (ordinary : S.status ≠ .exclusive)
    (absent : id ∉ w.schedule) : w.schedule.length < w.pool.maxService - 1 := by
  obtain ⟨nodup, tickets'⟩ := slips_le schedule_split sound.stands.single
  obtain ⟨E, foundE, statusE⟩ := sound.pool.exclusives 0 exclusive
  have notE : w.services 0 ∉ w.schedule := by
    intro member
    obtain ⟨T, foundT, told⟩ := sound.stands.held _ _ (tickets' _ member)
    have same : E = T := Option.some.inj (foundE.symm.trans foundT)
    subst same
    simp [Tells, statusE, Service.Dying] at told
  have ne : w.services 0 ≠ id := by
    rintro rfl
    have same : E = S := Option.some.inj (foundE.symm.trans found)
    exact ordinary (same ▸ statusE)
  have crowd : (w.services 0 :: id :: w.schedule).length ≤ w.pool.maxService := by
    apply Pool.length_le_maxService
    · simp [nodup, notE, ne, absent]
    · intro x member
      simp only [List.mem_cons] at member
      rcases member with rfl | rfl | member
      · exact ⟨E, foundE⟩
      · exact ⟨S, found⟩
      · obtain ⟨T, foundT, -⟩ := sound.stands.held _ _ (tickets' _ member)
        exact ⟨T, foundT⟩
  simp only [List.length_cons] at crowd
  omega

/-! ## Messages offered to a service -/

theorem noQueue_spec {p : Pool D} {to' : ℕ} {m : Message D}
    (pushed : p.pushMessage to' m = .noQueue) :
    ∃ S, p.get to' = some S ∧ S.status ≠ .dead ∧ S.msg = none := by
  unfold Pool.pushMessage at pushed
  cases found : p.get to' with
  | none => simp [found] at pushed
  | some S =>
      cases none' : S.msg with
      | none =>
          refine ⟨S, rfl, ?_, none'⟩
          intro dead
          simp [found, dead] at pushed
      | some messages =>
          simp only [found, none'] at pushed
          split at pushed
          · cases pushed
          · split at pushed <;> cases pushed

/-- A service that has been offered a message has it, when it is idle. -/
theorem offered {tickets : Multiset (ℕ × Standing)} {p p' : Pool D} {to' : ℕ} {m : Message D}
    (kept : Ticketed (Tells heard) (Rests hung none) tickets p.get)
    (pushed : p.pushMessage to' m = .succ p') :
    Ticketed (Tells heard) (Rests hung (some to')) tickets p'.get ∧
      ∃ S queue, p.get to' = some S ∧ S.msg = some queue ∧ S.status ≠ .dead ∧
        p'.get = Function.update p.get to' (some { S with msg := some (queue ++ [m]) }) ∧
        p'.queueLength = p.queueLength := by
  unfold Pool.pushMessage at pushed
  cases found : p.get to' with
  | none => simp [found] at pushed
  | some S =>
      by_cases dead : S.status = .dead
      · simp [found, dead] at pushed
      · cases queue : S.msg with
        | none => simp [found, dead, queue] at pushed
        | some messages =>
            simp only [found, dead, queue, if_false] at pushed
            split at pushed
            · cases pushed
              have now := Pool.modify_get
                (f := fun S => { S with msg := some (messages ++ [m]) }) (fun _ => rfl) found
              refine ⟨?_, S, messages, rfl, queue, dead, now, Pool.modify_queueLength _ _ _⟩
              rw [now]
              refine kept.touch found ?_ ?_ ?_
              · intro k told
                cases k <;> simp_all [Tells, Service.Dying, Service.hasMessage, Service.queued]
              · intro rests
                cases status : S.status <;> simp_all [Rests, Service.queued]
              · intro y T other rests
                cases status : T.status <;> simp_all [Rests, other.symm]
            · cases pushed

/-- A service that has been refused a message is not idle. -/
theorem refused {tickets : Multiset (ℕ × Standing)} {p : Pool D} {to' : ℕ} {m : Message D}
    (kept : Ticketed (Tells heard) (Rests hung none) tickets p.get) (room : 2 ≤ p.queueLength)
    (pushed : p.pushMessage to' m = .blocked ∨ p.pushMessage to' m = .dead) :
    Ticketed (Tells heard) (Rests hung (some to')) tickets p.get := by
  refine kept.weaken ?_
  intro y S found _ rests
  by_cases own : y = to'
  · subst own
    unfold Pool.pushMessage at pushed
    simp only [found] at pushed
    cases status : S.status with
    | idle =>
        simp only [Rests, status] at rests
        cases queue : S.msg with
        | none => simp [status, queue] at pushed
        | some messages =>
            have empty : messages = [] := by simpa [Service.queued, queue] using rests.2
            have space : 0 < p.queueLength - 1 := by omega
            simp [status, queue, empty, space] at pushed
    | uninitialized =>
        simp only [Rests, status] at rests
        simp [status, rests.1] at pushed
    | _ => simp_all [Rests]
  · have other : to' ≠ y := Ne.symm own
    cases status : S.status <;> simp_all [Rests]

/-- A service that is not idle needs no look at its status. -/
theorem looked {tickets : Multiset (ℕ × Standing)} {p : Pool D} {to' : ℕ}
    (kept : Ticketed (Tells heard) (Rests hung (some to')) tickets p.get)
    (busy : p.statusGet to' ≠ .idle) : Ticketed (Tells heard) (Rests hung none) tickets p.get := by
  refine kept.weaken ?_
  intro y S found _ rests
  by_cases own : y = to'
  · subst own
    rw [Pool.statusGet_of_get found] at busy
    cases status : S.status <;> simp_all [Rests]
  · have other : to' ≠ y := Ne.symm own
    cases status : S.status <;> simp_all [Rests]

/-- The phase after a look at the status of a service. -/
theorem Sound.next_of_check (sound : w.Sound heard hung config) {to' : ℕ} {next : Phase D}
    (is : w.owner = some (t, .check to' next)) :
    next.checks = none ∧ (∀ i, t = .worker i → next.Fits i (w.workers i)) ∧
      (∀ e, t = .exclusive e → next.turns ≤ (w.exclusives e).sending.length) ∧
      next.Regular config := by
  refine ⟨(sound.regular t _ is).1, ?_, ?_, (sound.regular t _ is).2⟩
  · rintro i rfl
    exact (sound.ownerFits is).2
  · rintro e rfl
    exact (sound.ownerExclusive e _ is).2

theorem scheduleBack_room {id : ℕ} (room : w.schedule.length < w.pool.maxService - 1) :
    w.scheduleBack id = w.setSchedule (w.schedule ++ [id]) := by
  simp [scheduleBack, room]

/-- One service more is in the schedule. -/
theorem tickets_scheduled {p : Pool D} (queue : rootQueue p = rootQueue w.pool) (id : ℕ) :
    (((w.setPool p).setSchedule (w.schedule ++ [id])).go t new).tickets config =
      (id, Standing.waiting) ::ₘ (new.tickets + w.unownedTickets config) := by
  rw [tickets_go, ← Multiset.singleton_add]
  change new.tickets + (slips (w.schedule ++ [id]) .waiting + w.workerTickets config +
    slips w.signals .signalled + signalSlips (rootQueue p)) = _
  rw [queue, slips_append, slips_cons, slips_nil]
  unfold unownedTickets
  abel

/-- A service with a ticket elsewhere is not in the schedule. -/
theorem absent_of_other {id : ℕ} {others rest : Multiset (ℕ × Standing)} {ids : List ℕ}
    (outside : id ∉ others.map Prod.fst) (is : others = slips ids .waiting + rest) : id ∉ ids := by
  intro member
  apply outside
  rw [is, Multiset.map_add, map_fst_slips]
  exact Multiset.mem_add.mpr (.inl member)

theorem Sound.check (sound : w.Sound heard hung config) (exclusive : 0 < config.exclusive) {to' : ℕ}
    {next : Phase D} (is : w.owner = some (t, .check to' next)) :
    ((w.wake to').go t next).Sound heard hung config ∧ (w.wake to').failed = w.failed := by
  obtain ⟨checks, fits, turns, regular⟩ := sound.next_of_check is
  have stands := sound.stands
  rw [checking_owner is] at stands
  change Ticketed _ (Rests hung (some to')) _ _ at stands
  by_cases idle : w.pool.statusGet to' = .idle
  · obtain ⟨S, found, status⟩ : ∃ S, w.pool.get to' = some S ∧ S.status = .idle := by
      cases found : w.pool.get to' with
      | none => simp [Pool.statusGet, found] at idle
      | some S => exact ⟨S, rfl, by rwa [Pool.statusGet_of_get found] at idle⟩
    have absent := sound.ticketless found (.inr (.inl status))
    have rests := stands.free to' S found absent
    simp only [Rests, status, ne_eq, not_true_eq_false, iff_false] at rests
    have outside : to' ∉ w.schedule := absent_of_other absent schedule_split
    have room := sound.scheduleRoom exclusive found (by simp [status]) outside
    have now := Pool.statusSet_get found .schedule
    have same : w.wake to' =
        (w.setPool (w.pool.statusSet to' .schedule)).setSchedule (w.schedule ++ [to']) := by
      unfold wake
      rw [if_pos idle]
      exact scheduleBack_room (by simpa [World.setPool, Pool.statusSet] using room)
    rw [same]
    refine ⟨?_, rfl⟩
    have leads : S.Leads { S with status := .schedule } :=
      ⟨rfl, by simp [status], by simp, fun sane =>
        ⟨fun none' => by simpa [status] using sane.queue none', sane.bounce⟩⟩
    refine sound.owner_step is rfl ?_ (sound.pool.change found leads now
      (Pool.modify_queueLength _ _ _)) (fun _ => rfl) (fun _ _ => rfl) fits turns
      regular
    have tickets' : (((w.setPool (w.pool.statusSet to' .schedule)).setSchedule
        (w.schedule ++ [to'])).go t next).tickets config =
        (to', Standing.waiting) ::ₘ w.tickets config := by
      rw [tickets_owner is]
      exact tickets_scheduled (Pool.rootQueue_change found now rfl) to'
    rw [tickets']
    change Ticketed _ _ _ (w.pool.statusSet to' .schedule).get
    rw [now, checks]
    have waiting : Tells heard .waiting { S with status := .schedule } := by
      refine Or.inl ⟨rfl, ?_⟩
      exact decide_eq_true (Or.inr rests.2)
    refine (stands.issue absent waiting).weaken ?_
    intro y T found' outside rests
    rw [Multiset.map_cons, Multiset.mem_cons, not_or] at outside
    have other : to' ≠ y := Ne.symm outside.1
    cases status : T.status <;> simp_all [Rests]
  · have same : w.wake to' = w := if_neg idle
    rw [same]
    refine ⟨?_, rfl⟩
    refine sound.owner_step is rfl ?_ sound.pool (fun _ => rfl) (fun _ _ => rfl) fits turns
      regular
    have tickets' : (w.go t next).tickets config = w.tickets config := by
      rw [tickets_owner is]
      exact tickets_go
    rw [tickets', checks]
    exact looked stands idle

/-! ## Messages of a service -/

theorem Sound.fail (sound : w.Sound heard hung config) (failure : Failure) :
    (w.fail failure).Sound heard hung config :=
  ⟨sound.stands, sound.workers, sound.ownerWorker, sound.ownerExclusive, sound.regular, sound.pool⟩

/-- The owner gives a receipt to a service that has sent a message, and moves on. -/
theorem Sound.receipted (sound : w.Sound heard hung config) (is : w.owner = some (t, old))
    {p : Pool D} {id : ℕ} {S : Service D}
    (stands : Ticketed (Tells heard) (Rests hung new.checks)
      (((w.setPool p).go t new).tickets config) p.get)
    (pool : p.Sound config.exclusive w.services) (found : p.get id = some S)
    (active : S.status = .running ∨ S.status = .done ∨ S.status = .exclusive)
    (receipt : Receipt) {bounce : Option (Message D)}
    (unsignalled : ∀ m, bounce = some m → m.type ≠ messageSignal)
    (fits : ∀ i, t = .worker i → new.Fits i (w.workers i))
    (turns : ∀ e, t = .exclusive e → new.turns ≤ (w.exclusives e).sending.length)
    (regular : new.Regular config) :
    ((w.setPool (p.writeReceipt id receipt bounce)).go t new).Sound heard hung config := by
  have now := Pool.writeReceipt_get found receipt bounce
  have leads : S.Leads { S with receipt := receipt, bounce := bounce } :=
    ⟨rfl, fun h => h, fun h => h, fun sane => ⟨sane.queue, unsignalled⟩⟩
  refine sound.owner_step is rfl ?_ (pool.change found leads now (Pool.modify_queueLength _ _ _))
    (fun _ => rfl) (fun _ _ => rfl) fits turns regular
  have same : ((w.setPool (p.writeReceipt id receipt bounce)).go t new).tickets config =
      ((w.setPool p).go t new).tickets config := by
    rw [tickets_eq, tickets_eq]
    change _ + signalSlips (rootQueue (p.writeReceipt id receipt bounce)) = _
    rw [Pool.rootQueue_change found now rfl]
    rfl
  rw [same]
  change Ticketed _ _ _ (p.writeReceipt id receipt bounce).get
  rw [now]
  exact touch_active stands found active rfl

/-- What the services promise of a message that one of them sends. -/
structure Proper (p : Pool D) (id : ℕ) (msg : Message D) : Prop where
  unsignalled : msg.type ≠ messageSignal
  /-- Root deletes only what it has closed. -/
  closed : id = serviceIdRoot → msg.to' = serviceIdSystem → msg.type = scheduleDel →
    p.get msg.session = none

/-- What a `MESSAGE_SCHEDULE_HANG` of root leaves alone. -/
structure Spares (hung : Prop) (p : Pool D) (id : ℕ) (msg : Message D) : Prop where
  /-- `service_hang` does not find that the service is running. -/
  running : id = serviceIdRoot → msg.to' = serviceIdSystem → msg.type = scheduleHang →
    (p.hang msg.session).2 = false
  /-- A service at rest is hung up only if `hung`. -/
  resting : id = serviceIdRoot → msg.to' = serviceIdSystem → msg.type = scheduleHang →
    p.statusGet msg.session = .idle ∨ p.statusGet msg.session = .uninitialized → hung

theorem Pool.hang_quiet {p : Pool D} {sid : ℕ}
    (status : p.statusGet sid = .idle ∨ p.statusGet sid = .uninitialized) :
    (p.hang sid).1 = (p.statusSet sid .dead).sendSignal sid := by
  unfold Pool.hang
  rcases status with status | status <;> simp [status]

/-- A service that does not run is hung up. -/
theorem hung_up {tickets : Multiset (ℕ × Standing)} {p : Pool D} {checking : Option ℕ} {sid : ℕ}
    {T : Service D} (kept : Ticketed (Tells heard) (Rests hung checking) tickets p.get)
    (found : p.get sid = some T)
    (status : T.status = .schedule ∨ T.status = .idle ∨ T.status = .uninitialized)
    (resting : T.status = .idle ∨ T.status = .uninitialized → hung)
    (other : sid ≠ serviceIdRoot) : ∃ S, T.Leads S ∧ S.queued = T.queued ∧
      ((p.statusSet sid .dead).sendSignal sid).get = Function.update p.get sid (some S) ∧
      Ticketed (Tells heard) (Rests hung checking) tickets
        ((p.statusSet sid .dead).sendSignal sid).get := by
  have dead := Pool.statusSet_get found .dead
  have found' : (p.statusSet sid .dead).get sid = some { T with status := .dead } := by
    rw [dead, Function.update_self]
  have now := Pool.sendSignal_get found'
  rw [dead, Function.update_idem] at now
  have idT := Pool.id_of_get found
  refine ⟨{ T with status := .dead, out := some (signalOf sid) }, ⟨rfl, ?_, ?_, ?_⟩, rfl, now, ?_⟩
  · intro exclusive
    rcases status with status | status | status <;> simp [status] at exclusive
  · simp
  · exact fun sane => ⟨fun _ => .inr rfl, sane.bounce⟩
  · rw [now]
    refine kept.touch found ?_ ?_ fun _ _ _ rests => rests
    case refine_2 =>
      intro rests
      rcases status with status | atRest
      · simp [Rests, status] at rests
      · exact resting atRest
    intro k told
    have alive : T.status ≠ .dead := by
      rcases status with status | status | status <;> simp [status]
    cases k with
    | waiting => exact .inr ⟨rfl, idT ▸ other, .inl (by simp [idT])⟩
    | resumed => rcases status with status | status | status <;> simp [Tells, status] at told
    | ended =>
        rcases told with done' | dying
        · rcases status with status | status | status <;> simp [status] at done'
        · exact absurd dying.1 alive
    | handled => rcases status with status | status | status <;> simp [Tells, status] at told
    | gone => exact absurd told alive
    | signalled => exact absurd told.1 alive

/-- Root has hung up a service that has not been running. -/
theorem Sound.killed (sound : w.Sound heard hung config) (is : w.owner = some (t, old))
    {S : Service D} (found : w.pool.get serviceIdRoot = some S)
    (active : S.status = .running ∨ S.status = .done ∨ S.status = .exclusive)
    (kept : Ticketed (Tells heard) (Rests hung new.checks) ((w.go t new).tickets config) w.pool.get)
    (sid : ℕ) (status : w.pool.statusGet sid = .schedule ∨ w.pool.statusGet sid = .idle ∨
      w.pool.statusGet sid = .uninitialized)
    (resting : w.pool.statusGet sid = .idle ∨ w.pool.statusGet sid = .uninitialized → hung)
    (receipt : Receipt) {bounce : Option (Message D)}
    (unsignalled : ∀ m, bounce = some m → m.type ≠ messageSignal)
    (fits : ∀ i, t = .worker i → new.Fits i (w.workers i))
    (turns : ∀ e, t = .exclusive e → new.turns ≤ (w.exclusives e).sending.length)
    (regular : new.Regular config) :
    ((w.setPool (((w.pool.statusSet sid .dead).sendSignal sid).writeReceipt serviceIdRoot receipt
      bounce)).go t new).Sound heard hung config := by
  cases foundT : w.pool.get sid with
  | none => simp [Pool.statusGet, foundT] at status
  | some T =>
      rw [Pool.statusGet_of_get foundT] at status resting
      have ne : serviceIdRoot ≠ sid := by
        rintro rfl
        have one : S = T := Option.some.inj (found.symm.trans foundT)
        rcases status with status | status | status <;> simp [one, status] at active
      obtain ⟨T', leads, queued, now, stands'⟩ := hung_up kept foundT status resting ne.symm
      have found' := (congrFun now serviceIdRoot).trans (Function.update_of_ne ne _ _)
      refine sound.receipted is ?_ (sound.pool.change foundT leads now ?_)
        (found'.trans found) active receipt unsignalled fits turns regular
      · rw [tickets_eq]
        change Ticketed _ _ ((w.go t new).placed config + signalSlips (rootQueue
          ((w.pool.statusSet sid .dead).sendSignal sid))) _
        rw [Pool.rootQueue_change foundT now queued]
        exact stands'
      · exact (Pool.modify_queueLength _ _ _).trans (Pool.modify_queueLength _ _ _)

/-- A message for the system. -/
theorem Sound.dispatchScheduleMessage (sound : w.Sound heard hung config)
    (is : w.owner = some (t, old)) {id : ℕ} {S : Service D}
    (found : w.pool.get id = some S)
    (active : S.status = .running ∨ S.status = .done ∨ S.status = .exclusive) {msg : Message D}
    (proper : Proper w.pool id msg) (spares : Spares hung w.pool id msg)
    (system : msg.to' = serviceIdSystem) {next : Phase D}
    (stands : Ticketed (Tells heard) (Rests hung none) ((w.go t next).tickets config) w.pool.get)
    (checks : next.checks = none)
    (fits : ∀ i, t = .worker i → next.Fits i (w.workers i))
    (turns : ∀ e, t = .exclusive e → next.turns ≤ (w.exclusives e).sending.length)
    (regular : next.Regular config) :
    ((w.dispatchScheduleMessage id msg).go t next).Sound heard hung config ∧
      (w.dispatchScheduleMessage id msg).failed = w.failed := by
  have kept : Ticketed (Tells heard) (Rests hung next.checks) ((w.go t next).tickets config)
      w.pool.get := by
    rw [checks]
    exact stands
  have given : ∀ receipt (bounce : Option (Message D)),
      (∀ m, bounce = some m → m.type ≠ messageSignal) →
      ((w.setPool (w.pool.writeReceipt id receipt bounce)).go t next).Sound heard hung config :=
    fun receipt bounce unsignalled => sound.receipted is kept sound.pool found active receipt
      unsignalled fits turns regular
  have own : ∀ m, some msg = some m → m.type ≠ messageSignal := by
    rintro m ⟨⟩
    exact proper.unsignalled
  unfold World.dispatchScheduleMessage
  by_cases root : id = serviceIdRoot
  · rw [if_neg (not_not.mpr root)]
    split
    · cases created : w.pool.new msg.session with
      | none =>
          refine ⟨given .error (some { msg with to' := 0 }) ?_, rfl⟩
          rintro m ⟨⟩
          exact proper.unsignalled
      | some made =>
          obtain ⟨sid, p⟩ := made
          obtain ⟨-, absent, now, -, -⟩ := Pool.new_spec created
          have ne : id ≠ sid := by
            rintro rfl
            rw [absent] at found
            cases found
          have found' : p.get id = some S := by rw [now, Function.update_of_ne ne, found]
          have other : sid ≠ serviceIdRoot := fun same => ne (root.trans same.symm)
          refine ⟨?_, rfl⟩
          refine sound.receipted is ?_ (sound.pool.new created) found' active .responce ?_ fits
            turns regular
          · rw [tickets_eq]
            change Ticketed _ _ ((w.go t next).placed config + signalSlips (rootQueue p)) _
            rw [Pool.rootQueue_other other now, now]
            exact kept.add absent (by simp [Rests, Service.fresh, checks])
          · rintro m ⟨⟩
            exact proper.unsignalled
    · split
      · rename_i _ del
        rw [delete_absent (proper.closed root system del)]
        exact ⟨given .done none (by simp), rfl⟩
      · split
        · rename_i _ _ hang
          have quiet := spares.running root system hang
          have resting := spares.resting root system hang
          subst root
          have killed := sound.killed is found active kept msg.session
          dsimp only
          split
          · rename_i scheduled
            exact ⟨killed (.inl scheduled) resting .error own fits turns regular, rfl⟩
          · rw [if_neg (by simp [quiet])]
            refine ⟨?_, rfl⟩
            cases status : w.pool.statusGet msg.session
            case idle =>
              rw [Pool.hang_quiet (.inl status)]
              exact killed (.inr (.inl status)) resting .done (by simp) fits turns regular
            case uninitialized =>
              rw [Pool.hang_quiet (.inr status)]
              exact killed (.inr (.inr status)) resting .done (by simp) fits turns regular
            case dead =>
              rw [show (w.pool.hang msg.session).1 = w.pool by simp [Pool.hang, status]]
              exact given .done none (by simp)
            case schedule => contradiction
            all_goals simp [Pool.hang, status] at quiet
        · exact ⟨given .error (some msg) own, rfl⟩
  · rw [if_pos root]
    exact ⟨given .error (some msg) own, rfl⟩

/-- The queue of root after a message was put into the queue of `to'`. -/
theorem signalSlips_pushed {p p' : Pool D} {to' : ℕ} {S : Service D} {queue : List (Message D)}
    {m : Message D} (found : p.get to' = some S) (is : S.msg = some queue)
    (now : p'.get = Function.update p.get to' (some { S with msg := some (queue ++ [m]) })) :
    signalSlips (rootQueue p') = signalSlips (rootQueue p) +
      if to' = serviceIdRoot ∧ m.type = messageSignal then {(m.from', Standing.signalled)}
      else 0 := by
  by_cases root : to' = serviceIdRoot
  · subst root
    have after : p'.get serviceIdRoot = some { S with msg := some (queue ++ [m]) } := by
      rw [now, Function.update_self]
    rw [rootQueue_of_get found, rootQueue_of_get after]
    simp only [Service.queued, is, Option.getD_some, true_and]
    unfold signalSlips
    by_cases signal : m.type = messageSignal <;> simp [signal]
  · rw [Pool.rootQueue_other root now]
    simp [root]

/-- The pool after a message was put into a queue. -/
theorem pool_pushed {p p' : Pool D} {exclusive : ℕ} {services : ℕ → ℕ}
    (sound : p.Sound exclusive services) {to' : ℕ} {S : Service D} {queue : List (Message D)}
    {m : Message D} (found : p.get to' = some S)
    (now : p'.get = Function.update p.get to' (some { S with msg := some (queue ++ [m]) }))
    (same : p'.queueLength = p.queueLength) : p'.Sound exclusive services := by
  have leads : S.Leads { S with msg := some (queue ++ [m]) } :=
    ⟨rfl, fun h => h, fun h => h, fun sane => ⟨by simp, sane.bounce⟩⟩
  exact sound.change found leads now same

/-- The owner hands out the message of a service that is done, or exclusive. -/
theorem Sound.dispatchOutMessage (sound : w.Sound heard hung config)
    (is : w.owner = some (t, old)) {id : ℕ} {S : Service D}
    (found : w.pool.get id = some S)
    (active : S.status = .running ∨ S.status = .done ∨ S.status = .exclusive) {msg : Message D}
    (proper : Proper w.pool id msg) (spares : Spares hung w.pool id msg) {next : Phase D}
    (stands : Ticketed (Tells heard) (Rests hung none) ((w.go t next).tickets config) w.pool.get)
    (checks : next.checks = none)
    (fits : ∀ i, t = .worker i → next.Fits i (w.workers i))
    (turns : ∀ e, t = .exclusive e → next.turns ≤ (w.exclusives e).sending.length)
    (regular : next.Regular config) :
    (w.dispatchOutMessage t id msg next).Sound heard hung config ∧
      ((∀ T, w.pool.get msg.to' = some T → T.status ≠ .dead → T.msg ≠ none) →
        (w.dispatchOutMessage t id msg next).failed = w.failed) := by
  have looking : (Phase.check msg.to' next).Regular config := ⟨checks, regular⟩
  have unsignalled : ∀ m, some msg = some m → m.type ≠ messageSignal := by
    rintro m ⟨⟩
    exact proper.unsignalled
  unfold World.dispatchOutMessage
  by_cases system : msg.to' = serviceIdSystem
  · rw [if_pos system]
    obtain ⟨after, failed⟩ := sound.dispatchScheduleMessage is found active proper spares system
      stands checks fits turns regular
    exact ⟨after, fun _ => failed⟩
  · rw [if_neg system]
    cases pushed : w.pool.pushMessage msg.to' msg with
    | succ p =>
        obtain ⟨kept, T, queue, foundT, isT, -, now, long⟩ := offered stands pushed
        refine ⟨?_, fun _ => rfl⟩
        have poolSound := pool_pushed sound.pool foundT now long
        have slips' := signalSlips_pushed foundT isT now
        rw [if_neg (by simp [proper.unsignalled]), add_zero] at slips'
        have ready : Ticketed (Tells heard) (Rests hung (Phase.check msg.to' next).checks)
            (((w.setPool p).go t (.check msg.to' next)).tickets config) p.get := by
          rw [tickets_eq]
          change Ticketed _ _ ((w.go t next).placed config + signalSlips (rootQueue p)) _
          rw [slips']
          exact kept
        by_cases own : msg.to' = id
        · have foundId : p.get id = some { T with msg := some (queue ++ [msg]) } := by
            rw [now, own, Function.update_self]
          have same : S = T := Option.some.inj (found.symm.trans (own ▸ foundT))
          subst same
          exact sound.receipted is ready poolSound foundId active .done (by simp) fits turns looking
        · have foundId : p.get id = some S := by
            rw [now, Function.update_of_ne (Ne.symm own), found]
          exact sound.receipted is ready poolSound foundId active .done (by simp) fits turns looking
    | blocked =>
        refine ⟨?_, fun _ => rfl⟩
        refine sound.receipted is ?_ sound.pool found active .block unsignalled fits turns looking
        exact refused stands sound.pool.room (.inl pushed)
    | dead =>
        refine ⟨?_, fun _ => rfl⟩
        refine sound.receipted is ?_ sound.pool found active .error unsignalled fits turns looking
        exact refused stands sound.pool.room (.inr pushed)
    | noQueue =>
        refine ⟨sound.fail _, fun queue => ?_⟩
        obtain ⟨T, foundT, alive, none'⟩ := noQueue_spec pushed
        exact absurd none' (queue T foundT alive)

/-! ## Jobs that are done -/

/-- The service of the first job that is done. -/
theorem Sound.told_owner (sound : w.Sound heard hung config) (is : w.owner = some (t, old))
    {id : ℕ} {k : Standing} {rest : Multiset (ℕ × Standing)}
    (first : old.tickets = {(id, k)} + rest) :
    w.tickets config = (id, k) ::ₘ (rest + w.unownedTickets config) ∧
      ∃ S, w.pool.get id = some S ∧ Tells heard k S := by
  have split' : w.tickets config = (id, k) ::ₘ (rest + w.unownedTickets config) := by
    rw [tickets_owner is, first, add_assoc, Multiset.singleton_add]
  refine ⟨split', ?_⟩
  have stands := sound.stands
  rw [split'] at stands
  exact stands.told

theorem Sound.finish (sound : w.Sound heard hung config) (exclusive : 0 < config.exclusive)
    {goal : Goal} {id : ℕ} {doneJob : List ℕ}
    (is : w.owner = some (t, .finish goal id doneJob))
    (next : w.ownerStep config t (.finish goal id doneJob) = some w') :
    w'.Sound heard hung config ∧ w'.failed = w.failed := by
  obtain ⟨split', S, found, done'⟩ := sound.told_owner is rfl
  have stands := sound.stands
  rw [checking_owner is, split'] at stands
  change S.status = .done at done'
  have fits : ∀ i, t = .worker i →
      (Phase.dispatch goal doneJob : Phase D).Fits i (w.workers i) := by
    rintro i rfl
    exact (sound.ownerFits is).2
  have has : w.pool.hasMessage id = S.hasMessage := by simp [Pool.hasMessage, found]
  simp only [World.ownerStep, has, Option.some.injEq] at next
  cases message : S.hasMessage with
  | true =>
      rw [message, if_pos rfl] at next
      have outside : id ∉ w.schedule :=
        absent_of_other stands.other (unowned_split _)
      have room := sound.scheduleRoom exclusive found (by simp [done']) outside
      rw [scheduleBack_room (by simpa [World.setPool, Pool.statusSet] using room)] at next
      subst next
      have now := Pool.statusSet_get found .schedule
      have leads : S.Leads { S with status := .schedule } :=
        ⟨rfl, by simp [done'], by simp, fun sane =>
          ⟨fun none' => by simpa [done'] using sane.queue none', sane.bounce⟩⟩
      refine ⟨?_, rfl⟩
      refine sound.owner_step is rfl ?_ (sound.pool.change found leads now
        (Pool.modify_queueLength _ _ _)) (fun _ => rfl) (fun _ _ => rfl) fits
        (fun _ _ => Nat.zero_le _) trivial
      have tickets' : (((w.setPool (w.pool.statusSet id .schedule)).setSchedule
          (w.schedule ++ [id])).go t (.dispatch goal doneJob)).tickets config =
          (id, Standing.waiting) ::ₘ (slips doneJob .ended + w.unownedTickets config) :=
        tickets_scheduled (Pool.rootQueue_change found now rfl) id
      change Ticketed _ _ ((((w.setPool (w.pool.statusSet id .schedule)).setSchedule
        (w.schedule ++ [id])).go t (.dispatch goal doneJob)).tickets config)
        (w.pool.statusSet id .schedule).get
      rw [tickets', now]
      exact stands.turn (Or.inl ⟨rfl, message⟩)
  | false =>
      rw [message, if_neg (by simp)] at next
      subst next
      have now := Pool.statusSet_get found .idle
      have leads : S.Leads { S with status := .idle } :=
        ⟨rfl, by simp [done'], by simp, fun sane =>
          ⟨fun none' => by simpa [done'] using sane.queue none', sane.bounce⟩⟩
      refine ⟨?_, rfl⟩
      refine sound.owner_step is rfl ?_ (sound.pool.change found leads now
        (Pool.modify_queueLength _ _ _)) (fun _ => rfl) (fun _ _ => rfl) fits
        (fun _ _ => Nat.zero_le _) trivial
      have tickets' : ((w.setPool (w.pool.statusSet id .idle)).go t
          (.dispatch goal doneJob)).tickets config =
          slips doneJob .ended + w.unownedTickets config := by
        rw [tickets_go]
        change slips doneJob .ended + (slips w.schedule .waiting +
          w.workerTickets config + slips w.signals .signalled +
          signalSlips (rootQueue (w.pool.statusSet id .idle))) = _
        rw [Pool.rootQueue_change found now rfl]
        rfl
      rw [tickets']
      change Ticketed _ _ _ (w.pool.statusSet id .idle).get
      rw [now]
      refine stands.settle ?_
      have empty : S.receipt = .none ∧ S.queued = [] := by
        simpa [Service.hasMessage, not_or] using message
      exact ⟨empty.1, by simpa [Phase.checks, Service.queued] using empty.2⟩

/-- Root has a queue. -/
theorem root_pushed {p : Pool D} {exclusive : ℕ} {services : ℕ → ℕ}
    (sound : p.Sound exclusive services) (m : Message D) :
    p.pushMessage serviceIdRoot m ≠ .noQueue := by
  obtain ⟨R, found, initialized⟩ := sound.root
  intro pushed
  obtain ⟨T, found', alive, none'⟩ := noQueue_spec pushed
  have same : R = T := Option.some.inj (found.symm.trans found')
  subst same
  rcases (sound.sane _ R found).queue none' with fresh | dead
  · exact initialized fresh
  · exact alive dead

/-- There is room for a signal in the queue of root. -/
def Roomy (p : Pool D) : Prop :=
  ∀ R, p.get serviceIdRoot = some R → R.queued.length < p.queueLength - 1

theorem roomy_pushed {p : Pool D} (roomy : Roomy p) (m : Message D) :
    p.pushMessage serviceIdRoot m ≠ .blocked := by
  intro pushed
  unfold Pool.pushMessage at pushed
  cases found : p.get serviceIdRoot with
  | none => simp [found] at pushed
  | some R =>
      have room := roomy R found
      cases is : R.msg with
      | none =>
          simp only [found, is] at pushed
          split at pushed <;> cases pushed
      | some messages =>
          simp only [Service.queued, is, Option.getD_some] at room
          simp only [found, is, room, if_true] at pushed
          split at pushed <;> cases pushed

/-- The owner signals root that a service is dead. -/
theorem Sound.dispatchSignal (sound : w.Sound heard hung config) (exclusive : 0 < config.exclusive)
    {goal : Goal} {id : ℕ} {doneJob : List ℕ}
    (is : w.owner = some (t, .dispatch goal (id :: doneJob)))
    (dead : w.pool.statusGet id = .dead) (roomy : heard → Roomy w.pool) :
    (w.dispatchSignal t goal id doneJob).Sound heard hung config ∧
      (heard → (w.dispatchSignal t goal id doneJob).failed = w.failed) := by
  obtain ⟨split', S, found, told⟩ := sound.told_owner is (slips_cons id doneJob .ended)
  have stands := sound.stands
  rw [checking_owner is, split'] at stands
  change Ticketed _ (Rests hung none) _ _ at stands
  rw [Pool.statusGet_of_get found] at dead
  obtain ⟨-, other, out⟩ : S.Dying heard := by
    rcases told with done' | dying
    · rw [dead] at done'
      cases done'
    · exact dying
  rw [Pool.id_of_get found] at other out
  have fits : ∀ i, t = .worker i →
      (Phase.dispatch goal doneJob : Phase D).Fits i (w.workers i) := by
    rintro i rfl
    exact (sound.ownerFits is).2
  unfold World.dispatchSignal
  rw [Pool.out_of_get found]
  rcases out with signal | ⟨unheard, lost⟩
  · rw [signal]
    simp only [signalOf_to, signalOf_type, and_self, if_true]
    have taken := Pool.takeOut_get found
    have long : (w.pool.takeOut id).queueLength = w.pool.queueLength :=
      Pool.modify_queueLength _ _ _
    have leads : S.Leads { S with out := none } :=
      ⟨rfl, fun h => h, fun h => h, fun sane => ⟨sane.queue, sane.bounce⟩⟩
    have poolSound := sound.pool.change found leads taken long
    cases pushed : (w.pool.takeOut id).pushMessage serviceIdRoot (signalOf id) with
    | succ p =>
        refine ⟨?_, fun _ => rfl⟩
        have signalled : Tells heard .signalled { S with out := none } :=
          ⟨dead, by rwa [Pool.id_of_get found]⟩
        have turned := stands.turn signalled
        rw [← taken] at turned
        obtain ⟨kept, T, queue, foundT, isT, -, now, same⟩ := offered turned pushed
        refine sound.owner_step is rfl ?_ (pool_pushed poolSound foundT now same) (fun _ => rfl)
          (fun _ _ => rfl) fits (fun _ _ => Nat.zero_le _) ⟨rfl, trivial⟩
        · have slips' := signalSlips_pushed foundT isT now
          rw [if_pos ⟨rfl, rfl⟩, Pool.rootQueue_change found taken rfl] at slips'
          have tickets' : ((w.setPool p).go t (.check serviceIdRoot
              (.dispatch goal doneJob))).tickets config =
              (id, Standing.signalled) ::ₘ (slips doneJob .ended + w.unownedTickets config) := by
            rw [tickets_go,
              ← Multiset.singleton_add]
            change slips doneJob .ended + (slips w.schedule .waiting + w.workerTickets config +
              slips w.signals .signalled + signalSlips (rootQueue p)) = _
            rw [slips']
            change _ = {(id, Standing.signalled)} + (slips doneJob .ended +
              (slips w.schedule .waiting + w.workerTickets config + slips w.signals .signalled +
                signalSlips (rootQueue w.pool)))
            simp only [signalOf]
            abel
          rw [tickets']
          exact kept
    | blocked =>
        have unheard : ¬ heard := by
          intro heard
          refine roomy_pushed ?_ (signalOf id) pushed
          intro R foundR
          rw [long]
          rw [taken, Function.update_of_ne other.symm] at foundR
          exact roomy heard R foundR
        have outside : id ∉ w.schedule :=
          absent_of_other stands.other (unowned_split _)
        have room := sound.scheduleRoom exclusive found (by simp [dead]) outside
        rw [scheduleBack_room (by simpa [World.setPool, Pool.takeOut] using room)]
        refine ⟨?_, fun heard => absurd heard unheard⟩
        refine sound.owner_step is rfl ?_ poolSound (fun _ => rfl)
          (fun _ _ => rfl) fits (fun _ _ => Nat.zero_le _) trivial
        have waiting : Tells heard .waiting { S with out := none } :=
          Or.inr ⟨dead, by rwa [Pool.id_of_get found], .inr ⟨unheard, rfl⟩⟩
        have tickets' : (((w.setPool (w.pool.takeOut id)).setSchedule (w.schedule ++ [id])).go t
            (.dispatch goal doneJob)).tickets config =
            (id, Standing.waiting) ::ₘ (slips doneJob .ended + w.unownedTickets config) :=
          tickets_scheduled (Pool.rootQueue_change found taken rfl) id
        change Ticketed _ _ ((((w.setPool (w.pool.takeOut id)).setSchedule
          (w.schedule ++ [id])).go t (.dispatch goal doneJob)).tickets config)
          (w.pool.takeOut id).get
        rw [tickets', taken]
        exact stands.turn waiting
    | dead =>
        refine ⟨?_, fun _ => rfl⟩
        refine sound.owner_step is rfl ?_ ?_ (fun _ => rfl)
          (fun _ _ => rfl) fits (fun _ _ => Nat.zero_le _) trivial
        · have gone : ((w.pool.takeOut id).delete id).get =
              Function.update w.pool.get id none := by
            rw [Pool.delete_get, taken, Function.update_idem]
          have tickets' : ((w.setPool ((w.pool.takeOut id).delete id)).go t
              (.dispatch goal doneJob)).tickets config =
              slips doneJob .ended + w.unownedTickets config := by
            rw [tickets_go]
            change slips doneJob .ended + (slips w.schedule .waiting + w.workerTickets config +
              slips w.signals .signalled +
              signalSlips (rootQueue ((w.pool.takeOut id).delete id))) = _
            rw [Pool.rootQueue_other other gone]
            rfl
          rw [tickets']
          change Ticketed _ _ _ ((w.pool.takeOut id).delete id).get
          rw [gone]
          exact stands.retire
        · refine poolSound.delete ?_ other
          intro T foundT
          rw [taken, Function.update_self] at foundT
          cases foundT
          simp [dead]
    | noQueue => exact absurd pushed (root_pushed poolSound _)
  · rw [lost]
    exact ⟨sound.fail _, fun heard => absurd heard unheard⟩

/-- The owner looks at the next job that is done. -/
theorem statusGet_takeOut (p : Pool D) (id sid : ℕ) :
    (p.takeOut id).statusGet sid = p.statusGet sid := by
  cases found : p.get id with
  | none => rw [Pool.takeOut, Pool.modify_absent found]
  | some S =>
      unfold Pool.statusGet
      rw [Pool.takeOut_get found]
      by_cases own : sid = id
      · rw [own, Function.update_self, found]
        rfl
      · rw [Function.update_of_ne own]

theorem hang_takeOut (p : Pool D) (id sid : ℕ) :
    ((p.takeOut id).hang sid).2 = (p.hang sid).2 := by
  unfold Pool.hang
  rw [statusGet_takeOut]
  split <;> rfl

theorem Spares.takeOut {p : Pool D} {id : ℕ} {msg : Message D} (spares : Spares hung p id msg) :
    Spares hung (p.takeOut id) id msg where
  running := by
    rw [hang_takeOut]
    exact spares.running
  resting := by
    rw [statusGet_takeOut]
    exact spares.resting

theorem Sound.dispatch (sound : w.Sound heard hung config) (exclusive : 0 < config.exclusive)
    {goal : Goal} {id : ℕ} {doneJob : List ℕ}
    (is : w.owner = some (t, .dispatch goal (id :: doneJob)))
    (proper : ∀ msg, w.pool.statusGet id ≠ .dead → w.pool.out id = some msg →
      Proper w.pool id msg ∧ Spares hung w.pool id msg)
    (roomy : heard → w.pool.statusGet id = .dead → Roomy w.pool)
    (next : w.ownerStep config t (.dispatch goal (id :: doneJob)) = some w') :
    w'.Sound heard hung config ∧ (heard →
      (∀ msg T, w.pool.out id = some msg → w.pool.get msg.to' = some T → T.status ≠ .dead →
        T.msg ≠ none) →
      w'.failed = w.failed) := by
  simp only [World.ownerStep, Option.some.injEq] at next
  by_cases dead : w.pool.statusGet id = .dead
  · rw [if_pos dead] at next
    subst next
    obtain ⟨after, failed⟩ := sound.dispatchSignal exclusive is dead fun heard => roomy heard dead
    exact ⟨after, fun heard _ => failed heard⟩
  · rw [if_neg dead] at next
    obtain ⟨split', S, found, told⟩ := sound.told_owner is (slips_cons id doneJob .ended)
    have done' : S.status = .done := by
      rcases told with done' | dying
      · exact done'
      · rw [Pool.statusGet_of_get found] at dead
        exact absurd dying.1 dead
    have stands := sound.stands
    rw [checking_owner is, split'] at stands
    have handled : Ticketed (Tells heard) (Rests hung none)
        ((w.go t (.finish goal id doneJob)).tickets config) w.pool.get := by
      have tickets' : (w.go t (.finish goal id doneJob)).tickets config =
          (id, Standing.handled) ::ₘ (slips doneJob .ended + w.unownedTickets config) := by
        rw [tickets_go,
          ← Multiset.singleton_add, ← add_assoc]
        rfl
      rw [tickets']
      refine stands.restand ?_
      intro T foundT _
      have same : S = T := Option.some.inj (found.symm.trans foundT)
      exact same ▸ done'
    have fits : ∀ i, t = .worker i →
        (Phase.finish goal id doneJob : Phase D).Fits i (w.workers i) := by
      rintro i rfl
      exact (sound.ownerFits is).2
    rw [Pool.out_of_get found] at next
    cases out : S.out with
    | none =>
        simp only [out] at next
        subst next
        refine ⟨?_, fun _ _ => rfl⟩
        exact sound.owner_step is rfl handled sound.pool (fun _ => rfl) (fun _ _ => rfl) fits
          (fun _ _ => Nat.zero_le _) trivial
    | some msg =>
        simp only [out] at next
        subst next
        have outId : w.pool.out id = some msg := by rw [Pool.out_of_get found, out]
        have taken := Pool.takeOut_get found
        have active : S.status = .running ∨ S.status = .done ∨ S.status = .exclusive :=
          .inr (.inl done')
        have root := Pool.rootQueue_change found taken rfl
        have before : (w.setPool (w.pool.takeOut id)).Sound heard hung config :=
          sound.active_step found active taken rfl
            ⟨rfl, fun h => h, fun h => h, fun sane => ⟨sane.queue, sane.bounce⟩⟩
            (Pool.modify_queueLength _ _ _) (by rw [root])
        have found' : (w.pool.takeOut id).get id = some { S with out := none } := by
          rw [taken, Function.update_self]
        obtain ⟨discipline, spares⟩ := proper msg dead outId
        have proper' : Proper (w.pool.takeOut id) id msg := by
          refine ⟨discipline.unsignalled, fun root system kind => ?_⟩
          have absent := discipline.closed root system kind
          have ne : msg.session ≠ id := by
            intro same
            rw [same, found] at absent
            cases absent
          rw [taken, Function.update_of_ne ne, absent]
        have stands' : Ticketed (Tells heard) (Rests hung none)
            (((w.setPool (w.pool.takeOut id)).go t (.finish goal id doneJob)).tickets config)
            (w.pool.takeOut id).get := by
          rw [tickets_eq]
          change Ticketed _ _ ((w.go t (.finish goal id doneJob)).placed config +
            signalSlips (rootQueue (w.pool.takeOut id))) (w.pool.takeOut id).get
          rw [root, taken]
          exact touch_active handled found active rfl
        obtain ⟨after, failed⟩ := before.dispatchOutMessage is found' active proper'
          spares.takeOut stands' rfl fits (fun _ _ => Nat.zero_le _) trivial
        refine ⟨after, fun _ queue => failed ?_⟩
        intro T foundT alive
        change (w.pool.takeOut id).get msg.to' = some T at foundT
        rw [taken] at foundT
        by_cases own : msg.to' = id
        · rw [own, Function.update_self] at foundT
          cases foundT
          exact queue msg S outId (own ▸ found) alive
        · rw [Function.update_of_ne own] at foundT
          exact queue msg T outId foundT alive

/-! ## Jobs handed out -/

/-- The tickets outside the owner and one worker. -/
def bareTickets (config : Config) (w : World D) (i : ℕ) : Multiset (ℕ × Standing) :=
  slips w.schedule .waiting + w.otherTickets config i + slips w.signals .signalled +
    signalSlips (rootQueue w.pool)

/-- The owner and a worker change their tickets together. -/
theorem tickets_handOver (is : w.owner = some (t, old)) {k : ℕ} (lt : k < config.worker)
    {worker : Worker} (moved : new.tickets + worker.tickets = old.tickets + (w.workers k).tickets) :
    ((w.setWorker k worker).go t new).tickets config = w.tickets config := by
  have after : ((w.setWorker k worker).go t new).tickets config =
      new.tickets + worker.tickets + w.bareTickets config k := by
    rw [tickets_go]
    change new.tickets + (slips w.schedule .waiting +
      (w.setWorker k worker).workerTickets config + slips w.signals .signalled +
      signalSlips (rootQueue w.pool)) = _
    rw [setWorker_workerTickets lt]
    unfold bareTickets
    abel
  have before : w.tickets config =
      old.tickets + (w.workers k).tickets + w.bareTickets config k := by
    rw [tickets_owner is]
    unfold unownedTickets bareTickets
    rw [workerTickets_eq lt]
    abel
  rw [after, before, moved]

/-- The owner changes a job that is ready or done at a worker. -/
theorem Sound.handOver (sound : w.Sound heard hung config) (is : w.owner = some (t, old)) {k : ℕ}
    (lt : k < config.worker) {worker : Worker} (stage : worker.stage = (w.workers k).stage)
    (running : t ≠ .worker k → worker.running = (w.workers k).running)
    (moved : new.tickets + worker.tickets = old.tickets + (w.workers k).tickets)
    (checks : new.checks = old.checks)
    (fits : ∀ i, t = .worker i → new.Fits i ((w.setWorker k worker).workers i))
    (turns : ∀ e, t = .exclusive e → new.turns ≤ (w.exclusives e).sending.length)
    (regular : new.Regular config) :
    ((w.setWorker k worker).go t new).Sound heard hung config := by
  refine sound.advance is rfl checks (tickets_handOver is lt moved) rfl rfl ?_ ?_ fits turns
    regular
  · intro j
    change ((w.setWorker k worker).workers j).stage = _
    by_cases own : j = k
    · rw [own, setWorker_self, stage]
    · rw [setWorker_other own]
  · intro j other
    change ((w.setWorker k worker).workers j).running = _
    by_cases own : j = k
    · rw [own, setWorker_self]
      exact running (own ▸ other)
    · rw [setWorker_other own]

/-- The owner goes on without a change. -/
theorem Sound.go_on (sound : w.Sound heard hung config) (is : w.owner = some (t, old))
    (same : new.tickets = old.tickets) (checks : new.checks = old.checks)
    (fits : ∀ i, t = .worker i → new.Fits i (w.workers i))
    (turns : ∀ e, t = .exclusive e → new.turns ≤ (w.exclusives e).sending.length)
    (regular : new.Regular config) : (w.go t new).Sound heard hung config := by
  refine sound.advance is rfl checks ?_ rfl rfl (fun _ => rfl) (fun _ _ => rfl) fits turns regular
  rw [tickets_owner is, tickets_go, same]

end World

end WindLtask.Runtime
