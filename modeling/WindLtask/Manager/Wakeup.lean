import Mathlib.Data.List.Basic
import WindLtask.Manager.Process

/-!
# The wake-up pass

What `try_wakup` does, said once: it removes some requests from the queue, locks
their names, queues their coroutines for resumption, and leaves every request
that stays with a locked name.  The scan never goes back to an earlier entry;
that is enough because the pass only ever locks names, so an entry that was
blocked when the scan passed it stays blocked.
-/

set_option linter.unusedSectionVars false

namespace WindLtask.Manager.Process

/-! ## The lock table -/

section Tables

variable {Name Addr Rid D : Type}

theorem isLocked_iff (p : Process Name Addr Rid D) (n : Name) :
    p.isLocked n = true ↔ p.locked n = some true := by
  simp [isLocked]

/-- A request one of whose names is locked. -/
def Blocked (p : Process Name Addr Rid D) (names : List Name) : Prop :=
  ∃ n ∈ names, p.locked n = some true

end Tables

variable {Name Addr Rid D : Type} [DecidableEq Name]

theorem lockAll_apply (names : List Name) (locked : Name → Option Bool) (n : Name) :
    lockAll names locked n = if n ∈ names then some true else locked n := by
  induction names generalizing locked with
  | nil => simp [lockAll]
  | cons name rest ih =>
      have step : lockAll (name :: rest) locked =
          lockAll rest (Function.update locked name (some true)) := rfl
      rw [step, ih]
      by_cases inRest : n ∈ rest
      · simp [inRest]
      · by_cases same : n = name <;> simp [inRest, same]

theorem tryLock_eq_none_iff (p : Process Name Addr Rid D) (names : List Name) :
    p.tryLock names = none ↔ p.Blocked names := by
  simp [tryLock, Blocked, isLocked_iff]

/-- A successful `try_lock` found no name locked and locks them all. -/
theorem tryLock_eq_some {p q : Process Name Addr Rid D} {names : List Name}
    (done : p.tryLock names = some q) :
    ¬ p.Blocked names ∧ q = { p with locked := lockAll names p.locked } := by
  constructor
  · intro blocked
    rw [(p.tryLock_eq_none_iff names).mpr blocked] at done
    cases done
  · simp only [tryLock] at done
    split at done
    · cases done
    · exact (Option.some.inj done).symm

theorem tryLock_of_not_blocked {p : Process Name Addr Rid D} {names : List Name}
    (ready : ¬ p.Blocked names) :
    p.tryLock names = some { p with locked := lockAll names p.locked } := by
  cases done : p.tryLock names with
  | none => exact absurd ((p.tryLock_eq_none_iff names).mp done) ready
  | some q => rw [(tryLock_eq_some done).2]

section Wakeup

variable [DecidableEq Rid]

@[simp] theorem wakeup_waitting (p : Process Name Addr Rid D) (rid : Rid)
    (list : List (Option Addr)) : (p.wakeup rid list).waitting = p.waitting := by
  simp only [wakeup]
  split <;> rfl

@[simp] theorem wakeup_locked (p : Process Name Addr Rid D) (rid : Rid)
    (list : List (Option Addr)) : (p.wakeup rid list).locked = p.locked := by
  simp only [wakeup]
  split <;> rfl

end Wakeup

/-- Locking more names keeps a blocked request blocked. -/
theorem blocked_of_lockAll {p q : Process Name Addr Rid D} (names : List Name) {other : List Name}
    (locked : q.locked = lockAll names p.locked) (before : p.Blocked other) :
    q.Blocked other := by
  obtain ⟨n, member, was⟩ := before
  refine ⟨n, member, ?_⟩
  rw [locked, lockAll_apply]
  split
  · rfl
  · exact was

/-! ## One round of the scan -/

theorem scan_eq_none {p : Process Name Addr Rid D} {index : Nat}
    {entries : List (Rid × List Name)} (done : p.scan index entries = none) :
    ∀ entry ∈ entries, p.Blocked entry.2 := by
  induction entries generalizing index with
  | nil => simp
  | cons entry rest ih =>
      cases attempt : p.tryLock entry.2 with
      | some q => simp [scan, attempt] at done
      | none =>
          have later : p.scan (index + 1) rest = none := by simpa [scan, attempt] using done
          intro other member
          rcases List.mem_cons.mp member with same | inRest
          · exact same ▸ (p.tryLock_eq_none_iff entry.2).mp attempt
          · exact ih later other inRest

/-- A scan stops at the first entry that is not blocked. -/
theorem scan_eq_some {p q : Process Name Addr Rid D} {index k : Nat} {rid : Rid}
    {names : List Name} {entries : List (Rid × List Name)}
    (found : p.scan index entries = some (k, rid, names, q)) :
    ∃ passed rest, entries = passed ++ (rid, names) :: rest ∧ k = index + passed.length ∧
      p.tryLock names = some q ∧ ∀ entry ∈ passed, p.Blocked entry.2 := by
  induction entries generalizing index with
  | nil => cases found
  | cons entry rest ih =>
      obtain ⟨first, firstNames⟩ := entry
      cases attempt : p.tryLock firstNames with
      | some q' =>
          obtain ⟨rfl, rfl, rfl, rfl⟩ : index = k ∧ first = rid ∧ firstNames = names ∧ q' = q := by
            simpa [scan, attempt] using found
          exact ⟨[], rest, rfl, rfl, attempt, by simp⟩
      | none =>
          have later : p.scan (index + 1) rest = some (k, rid, names, q) := by
            simpa [scan, attempt] using found
          obtain ⟨passed, tail, shape, position, locked, blocked⟩ := ih later
          refine ⟨(first, firstNames) :: passed, tail, by rw [shape]; rfl, ?_, locked, ?_⟩
          · rw [position, List.length_cons]; omega
          · intro other member
            rcases List.mem_cons.mp member with same | inPassed
            · exact same ▸ (p.tryLock_eq_none_iff firstNames).mp attempt
            · exact blocked other inPassed

/-! ## The whole pass -/

/-- The requests of a queue that one pass from its front finds free, in this order. -/
def grants (locked : Name → Option Bool) : List (Rid × List Name) → List (Rid × List Name)
  | [] => []
  | entry :: rest =>
      if entry.2.any fun n => locked n == some true then grants locked rest
      else entry :: grants (lockAll entry.2 locked) rest

theorem grants_of_blocked {p : Process Name Addr Rid D} {passed : List (Rid × List Name)}
    (blocked : ∀ entry ∈ passed, p.Blocked entry.2) (rest : List (Rid × List Name)) :
    grants p.locked (passed ++ rest) = grants p.locked rest := by
  induction passed with
  | nil => rfl
  | cons entry passed ih =>
      have here : (entry.2.any fun n => p.locked n == some true) = true := by
        obtain ⟨n, member, locked⟩ := blocked entry List.mem_cons_self
        exact List.any_eq_true.mpr ⟨n, member, by simp [locked]⟩
      rw [List.cons_append, grants, if_pos here]
      exact ih fun other member => blocked other (List.mem_cons_of_mem _ member)

theorem grants_of_ready {p : Process Name Addr Rid D} {rid : Rid} {names : List Name}
    (ready : ¬ p.Blocked names) (rest : List (Rid × List Name)) :
    grants p.locked ((rid, names) :: rest) =
      (rid, names) :: grants (lockAll names p.locked) rest := by
  have here : ¬ (names.any fun n => p.locked n == some true) = true := by
    intro any
    obtain ⟨n, member, locked⟩ := List.any_eq_true.mp any
    exact ready ⟨n, member, by simpa using locked⟩
  rw [grants, if_neg here]

variable [DecidableEq Rid]

/-- The pass has turned `p` into `q` and woken the requests `woken`, in this order. -/
structure Woken (p q : Process Name Addr Rid D) (woken : List (Rid × List Name)) : Prop where
  perm : p.waitting.Perm (woken ++ q.waitting)
  kept : q.waitting.Sublist p.waitting
  locked : ∀ n, q.locked n = if n ∈ woken.flatMap Prod.snd then some true else p.locked n
  ready : ∀ entry ∈ woken, ¬ p.Blocked entry.2
  apart : woken.Pairwise fun left right => ∀ n ∈ left.2, n ∉ right.2
  queue : q.wakeupQueue = p.wakeupQueue ++ woken.map fun entry => (entry.1, entry.2.map p.state)
  sessions : ∀ rid, q.sessionWaiting rid =
    (p.sessionWaiting rid && decide (rid ∉ woken.map Prod.fst))
  state : q.state = p.state
  spawning : q.spawning = p.spawning
  patching : q.patching = p.patching

/-- Every waiting request has a coroutine that waits on its own token. -/
structure Waits (p : Process Name Addr Rid D) : Prop where
  session : ∀ entry ∈ p.waitting, p.sessionWaiting entry.1 = true
  distinct : (p.waitting.map Prod.fst).Nodup

namespace Woken

variable {p q : Process Name Addr Rid D} {woken : List (Rid × List Name)}

theorem refl (p : Process Name Addr Rid D) : Woken p p [] where
  perm := by simp
  kept := List.Sublist.refl _
  locked := by simp
  ready := by simp
  apart := List.Pairwise.nil
  queue := by simp
  sessions := by simp
  state := rfl
  spawning := rfl
  patching := rfl

/-- The pass keeps every blocked request blocked. -/
theorem blocked (pass : Woken p q woken) {names : List Name} (before : p.Blocked names) :
    q.Blocked names := by
  obtain ⟨n, member, locked⟩ := before
  refine ⟨n, member, ?_⟩
  rw [pass.locked n]
  split
  · rfl
  · exact locked

/-- One more round: the scan found the entry `(rid, names)` after `passed`. -/
theorem snoc (waits : Waits p) (pass : Woken p q woken) {rid : Rid} {names : List Name}
    {passed rest : List (Rid × List Name)} (shape : q.waitting = passed ++ (rid, names) :: rest)
    (ready : ¬ q.Blocked names) :
    Woken p (wakeup { q with locked := lockAll names q.locked, waitting := passed ++ rest } rid
      (names.map q.state)) (woken ++ [(rid, names)]) := by
  have member : (rid, names) ∈ p.waitting := pass.perm.mem_iff.mpr (by simp [shape])
  have fresh : rid ∉ woken.map Prod.fst := by
    have nodup := (pass.perm.map Prod.fst).nodup_iff.mp waits.distinct
    rw [List.map_append, List.nodup_append] at nodup
    intro earlier
    exact nodup.2.2 rid earlier rid (by simp [shape]) rfl
  have session : q.sessionWaiting rid = true := by
    simp only [pass.sessions rid, waits.session _ member, fresh, Bool.true_and, not_false_eq_true,
      decide_true]
  simp only [wakeup, session, if_true]
  constructor
  · have cycle : (passed ++ (rid, names) :: rest).Perm ((rid, names) :: (passed ++ rest)) :=
      List.perm_middle
    have whole := pass.perm.trans ((shape ▸ cycle).append_left woken)
    simpa using whole
  · have smaller : (passed ++ rest).Sublist q.waitting := by
      rw [shape]
      exact (List.Sublist.refl passed).append (List.sublist_cons_self _ _)
    exact smaller.trans pass.kept
  · intro n
    simp only [lockAll_apply, List.flatMap_append, List.mem_append, List.flatMap_cons,
      List.flatMap_nil, List.append_nil, pass.locked n]
    by_cases here : n ∈ names <;> by_cases earlier : n ∈ woken.flatMap Prod.snd <;>
      simp [here, earlier]
  · intro entry inAll
    rcases List.mem_append.mp inAll with earlier | last
    · exact pass.ready entry earlier
    · have same : entry = (rid, names) := by simpa using last
      subst same
      exact fun before => ready (pass.blocked before)
  · rw [List.pairwise_append]
    refine ⟨pass.apart, List.pairwise_singleton _ _, ?_⟩
    intro left inWoken right isLast n inLeft inRight
    have same : right = (rid, names) := by simpa using isLast
    subst same
    refine ready ⟨n, inRight, ?_⟩
    rw [pass.locked n, if_pos (List.mem_flatMap.mpr ⟨left, inWoken, inLeft⟩)]
  · simp [pass.queue, pass.state]
  · intro other
    by_cases same : other = rid
    · subst same
      simp
    · simp only [Function.update_of_ne same, pass.sessions other]
      congr 2
      simp [same]
  · exact pass.state
  · exact pass.spawning
  · exact pass.patching

end Woken

/-- From any point of the pass the loop ends, with every remaining request blocked. -/
theorem wakupLoop_spec {p : Process Name Addr Rid D} (waits : Waits p) (fuel index : Nat)
    (q : Process Name Addr Rid D) (woken : List (Rid × List Name)) (pass : Woken p q woken)
    (enough : q.waitting.length < fuel)
    (behind : ∀ entry ∈ q.waitting.take index, q.Blocked entry.2) :
    ∃ r, wakupLoop fuel index q = some r ∧
      Woken p r (woken ++ grants q.locked (q.waitting.drop index)) ∧
      ∀ entry ∈ r.waitting, r.Blocked entry.2 := by
  induction fuel generalizing index q woken with
  | zero => omega
  | succ fuel ih =>
      cases found : q.scan index (q.waitting.drop index) with
      | none =>
          have allBlocked := scan_eq_none found
          have none_free : grants q.locked (q.waitting.drop index) = [] := by
            simpa [grants] using grants_of_blocked allBlocked []
          refine ⟨q, by simp [wakupLoop, found], by simpa [none_free] using pass, ?_⟩
          intro entry member
          rw [← List.take_append_drop index q.waitting] at member
          rcases List.mem_append.mp member with before | after
          · exact behind entry before
          · exact allBlocked entry after
      | some hit =>
          obtain ⟨k, rid, names, q'⟩ := hit
          obtain ⟨passed, rest, shape, position, attempt, blocked⟩ := scan_eq_some found
          obtain ⟨ready, rfl⟩ := tryLock_eq_some attempt
          have whole : q.waitting = (q.waitting.take index ++ passed) ++ (rid, names) :: rest := by
            rw [List.append_assoc, ← shape, List.take_append_drop]
          have inside : index ≤ q.waitting.length := by
            have := congrArg List.length shape
            simp only [List.length_drop, List.length_append, List.length_cons] at this
            omega
          have front : (q.waitting.take index ++ passed).length = k := by
            rw [List.length_append, List.length_take, position]; omega
          have removed : q.waitting.eraseIdx k = (q.waitting.take index ++ passed) ++ rest := by
            rw [← front]
            generalize q.waitting.take index ++ passed = before at whole
            rw [whole, List.eraseIdx_append_of_length_le (Nat.le_refl _)]
            simp
          have next := pass.snoc waits whole ready
          obtain ⟨r, done, wokenAll, blockedAll⟩ := ih k _ _ next
            (by
              have := congrArg List.length whole
              simp only [wakeup_waitting, List.length_append, List.length_cons] at this ⊢
              omega)
            (by
              intro entry member
              rw [wakeup_waitting, ← front, List.take_left] at member
              apply blocked_of_lockAll (p := q) names (wakeup_locked _ _ _)
              rcases List.mem_append.mp member with before | inPassed
              · exact behind entry before
              · exact blocked entry inPassed)
          have later : woken ++ [(rid, names)] ++ grants (lockAll names q.locked) rest =
              woken ++ grants q.locked (q.waitting.drop index) := by
            rw [shape, grants_of_blocked blocked, grants_of_ready ready, List.append_assoc]
            rfl
          refine ⟨r, ?_, ?_, blockedAll⟩
          · simpa [wakupLoop, found, removed, querystates] using done
          · rw [wakeup_waitting, wakeup_locked, ← front, List.drop_left] at wokenAll
            exact later ▸ wokenAll

/-- `try_wakup` returns: every round but the last takes one request out of the queue. -/
theorem wakupLoop_ends (p : Process Name Addr Rid D) (index : Nat) :
    ∃ q, ∀ fuel, p.waitting.length < fuel → wakupLoop fuel index p = some q := by
  induction length : p.waitting.length using Nat.strongRecOn generalizing p index with
  | _ length' ih =>
      cases found : p.scan index (p.waitting.drop index) with
      | none =>
          refine ⟨p, fun fuel enough => ?_⟩
          obtain ⟨less, rfl⟩ : ∃ less, fuel = less + 1 := ⟨fuel - 1, by omega⟩
          simp [wakupLoop, found]
      | some hit =>
          obtain ⟨k, rid, names, q⟩ := hit
          obtain ⟨passed, rest, shape, position, attempt, -⟩ := scan_eq_some found
          obtain ⟨-, rfl⟩ := tryLock_eq_some attempt
          have inside : k < p.waitting.length := by
            have := congrArg List.length shape
            simp only [List.length_drop, List.length_append, List.length_cons] at this
            omega
          have shorter : (p.waitting.eraseIdx k).length + 1 = p.waitting.length := by
            rw [List.length_eraseIdx_of_lt inside]
            omega
          obtain ⟨r, done⟩ := ih (p.waitting.eraseIdx k).length (by omega)
            (wakeup { p with
              locked := lockAll names p.locked
              waitting := p.waitting.eraseIdx k } rid (names.map p.state)) k (by simp)
          refine ⟨r, fun fuel enough => ?_⟩
          obtain ⟨less, rfl⟩ : ∃ less, fuel = less + 1 := ⟨fuel - 1, by omega⟩
          have enoughLess := done less (by omega)
          simpa [wakupLoop, found, querystates] using enoughLess

/-- What `try_wakup` does: one pass, after which every waiting request is blocked. -/
theorem tryWakup_spec {p : Process Name Addr Rid D} (waits : Waits p) :
    Woken p p.tryWakup (grants p.locked p.waitting) ∧
      ∀ entry ∈ p.tryWakup.waitting, p.tryWakup.Blocked entry.2 := by
  obtain ⟨r, done, pass, blocked⟩ := wakupLoop_spec waits (p.waitting.length + 1) 0 p []
    (Woken.refl p) (Nat.lt_succ_self _) (by simp)
  have same : p.tryWakup = r := by simp [tryWakup, done]
  rw [same]
  exact ⟨by simpa using pass, blocked⟩

end WindLtask.Manager.Process
