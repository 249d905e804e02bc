import WindLtask.Worker.StarreLaws

/-!
# Releasing the locks of a query

One `starre.query` from its lock reply to the `unlock` messages of its worker:
the calls of the cells, the scope that holds the results in to-be-closed
variables, and the end of its coroutine.  `resume_session` resumes a coroutine
that ends with an error once and for all, and nothing closes its variables.
-/

set_option linter.unusedSectionVars false

namespace WindLtask

/-! ## Where the fork raises -/

/-- What `type` and `pack_one` say about scalars and keys. -/
structure Kinds (K V : Type) where
  /-- the type is neither function nor userdata -/
  compared : V → Bool
  /-- `pack_one` has a case for the type -/
  packed : V → Bool
  packedKey : K → Bool

namespace Kinds

variable {K V : Type} [DecidableEq K]

/--
Whether `table_diff(A, B)` returns.  Where both loops meet a pair of tables, the
second one compares what the first one has compared.
-/
def diffReturns (kinds : Kinds K V) : Nat → Table K V → Table K V → Bool
  | 0, _, _ => true
  | fuel + 1, old, new =>
      (old.pairs.all fun entry =>
        match entry.2, new.get entry.1 with
        | .scalar v, _ => kinds.compared v
        | .table a, some (.table b) => diffReturns kinds fuel a b
        | .table _, _ => true) &&
      new.pairs.all fun entry =>
        match entry.2 with
        | .scalar v => kinds.compared v
        | .table _ => true

/-- Whether `pack_one` takes the entries of a table `levels` below `MAX_DEPTH`. -/
def packsTable (kinds : Kinds K V) : Nat → Table K V → Bool
  | 0, t => t.isEmpty
  | levels + 1, t => t.pairs.all fun entry =>
      kinds.packedKey entry.1 &&
        match entry.2 with
        | .scalar v => kinds.packed v
        | .table sub => packsTable kinds levels sub

/-- Whether `pack_one` takes the fields of a difference `levels` below `MAX_DEPTH`. -/
def packsDiff (kinds : Kinds K V) (levels : Nat) : Diff K V → Bool
  | .flat del mod =>
      (del.isEmpty || decide (2 ≤ levels) && del.all kinds.packedKey) &&
        (mod.isEmpty || decide (1 ≤ levels) && kinds.packsTable (levels - 1) mod)
  | .sub key inner rest =>
      decide (2 ≤ levels) && kinds.packedKey key && packsDiff kinds (levels - 2) inner &&
        packsDiff kinds levels rest

/-- The differences in `patch_map` lie two levels below it. -/
def packsChange (kinds : Kinds K V) : Option (Diff K V) → Bool
  | none => true
  | some diff => kinds.packsDiff 30 diff

end Kinds

/-! ## The scope of a query -/

/-- How the function of a coroutine ends. -/
inductive Ending where
  | returned
  | raised
  deriving DecidableEq

/-- The to-be-closed variables that are closed when the coroutine has ended. -/
def Ending.closed {α : Type} (pending : List α) : Ending → List α
  | .returned => pending.reverse
  -- `coroutine.resume` returns the error, and `coroutine.close` is never called
  | .raised => []

/-- A query whose lock has been granted, with all that it meets until its scope ends. -/
structure Scope (Name Addr K V : Type) where
  names : List Name
  /-- the table `state` of the manager when it replies -/
  state : Name → Option Addr
  /-- the value of `#addrs` -/
  border : Nat
  isBorder : Query.IsBorder (names.map state) border
  /-- the caches when the cell of an index answers, and the answer unless the call raises -/
  met : Nat → Cache Name K V × Option (Answer K V)
  /-- the code of the scope: the tables as it leaves them, and how it ends -/
  body : (given : List (Table K V)) → {left : List (Table K V) // left.length = given.length} ×
    Ending
  /-- the caches when the fork of `__close` runs -/
  later : Cache Name K V

variable {Name Addr K V : Type} [DecidableEq Name] [DecidableEq K] [DecidableEq V]

instance (q : Query Name Addr K V) (i : Nat) : Decidable (q.closes i) :=
  inferInstanceAs (Decidable (i < q.newList.length ∧ ¬ i + 1 < q.border))

/-- The argument of `unlock` that the fork of `__close` sends, unless it raises. -/
def Query.unlock (kinds : Kinds K V) (q : Query Name Addr K V) (cache : Cache Name K V) :
    Option (List (Name × Option (Diff K V))) :=
  if (List.zipWith (fun old new => kinds.diffReturns (old.depth + 1) old new)
      q.oldList q.newList).all id then
    (q.close cache).2.filter fun patchMap =>
      patchMap.all fun entry => kinds.packsChange entry.2
  else none

namespace Scope

/-- The loop of `starre.query` over the lock reply; `none` when it raises. -/
def loop (s : Scope Name Addr K V) : Nat → Query Name Addr K V → Option (Query Name Addr K V)
  | 0, q => some q
  | fuel + 1, q =>
      match q.awaits with
      | none => some q
      | some (name, _) =>
          match s.met q.oldList.length with
          | (_, none) => none
          | (cache, some answer) => (q.receive cache name answer).2.bind (s.loop fuel)

/-- `starre.query(...)`, one round of fuel for each name. -/
def query (s : Scope Name Addr K V) : Option (Query Name Addr K V) :=
  s.loop s.names.length (.start s.names (s.names.map s.state) s.border)

/-- The results that carry the close function, each in a to-be-closed variable of the scope. -/
def pending (q : Query Name Addr K V) : List Nat :=
  (List.range q.newList.length).filter fun i => q.closes i

/-- How the coroutine ends. -/
def ending (s : Scope Name Addr K V) : Ending :=
  match s.query with
  | none => .raised
  | some q => (s.body q.newList).2

/-- The `unlock` messages of the worker for this query. -/
def unlocks (kinds : Kinds K V) (s : Scope Name Addr K V) :
    List (List (Name × Option (Diff K V))) :=
  match s.query with
  | none => []
  | some q =>
      let (left, ending) := s.body q.newList
      let q := { q with newList := left.1 }
      (ending.closed (pending q)).filterMap fun _ => q.unlock kinds s.later

/--
The worker sends one `unlock` with exactly the granted names, and no patch in it
if the coroutine has ended with an error.
-/
def Released (kinds : Kinds K V) (s : Scope Name Addr K V) : Prop :=
  ∃ patchMap, s.unlocks kinds = [patchMap] ∧ (patchMap.map Prod.fst).Nodup ∧
    (∀ name, name ∈ patchMap.map Prod.fst ↔ name ∈ s.names) ∧
    (s.ending = .raised → ∀ entry ∈ patchMap, entry.2 = none)

/-! ## When all goes well -/

/-- The table that `update_state` returns for the answer at an index. -/
def read (s : Scope Name Addr K V) (i : Nat) : Option (Table K V) := do
  let name ← s.names[i]?
  let answer ← (s.met i).2
  (updateState (s.met i).1 name answer).2

/-- The tables that the query reads. -/
def olds (s : Scope Name Addr K V) : List (Table K V) :=
  (List.range s.names.length).filterMap s.read

/-- The tables that the scope leaves. -/
def lefts (s : Scope Name Addr K V) : List (Table K V) :=
  (s.body (s.olds.map Table.clone)).1.1

/--
There are names and all of them have a cell, every cell answers and its answer
can be used, the scope ends without an error, and its changes can be computed
and packed; of two changes for one name only the last is packed.
-/
structure Orderly (kinds : Kinds K V) (s : Scope Name Addr K V) : Prop where
  named : s.names ≠ []
  present : ∀ name ∈ s.names, (s.state name).isSome
  answered : ∀ i < s.names.length, (s.read i).isSome
  returned : (s.body (s.olds.map Table.clone)).2 = .returned
  plain : ∀ (i : Nat) old left, s.olds[i]? = some old → s.lefts[i]? = some left →
    kinds.diffReturns (old.depth + 1) old left
  packs : ∀ (i : Nat) name old left, s.names[i]? = some name → s.olds[i]? = some old →
    s.lefts[i]? = some left → (∀ j, i < j → s.names[j]? ≠ some name) →
    kinds.packsChange (ltdiff old left)

end Scope

/-! ## The patch map of a complete query -/

/-- The loop of `__close` sets the entry of a name at its last index. -/
theorem Query.closeLoop_entries (names : List Name) (olds news : List (Table K V))
    (cache : Cache Name K V) (oldLength : olds.length = names.length)
    (newLength : news.length = names.length) :
    ∃ patchMap, (closeLoop cache names olds news).2 = some patchMap ∧
      (patchMap.map Prod.fst).Nodup ∧ (∀ n, n ∈ patchMap.map Prod.fst ↔ n ∈ names) ∧
      ∀ entry, entry ∈ patchMap ↔ ∃ (i : Nat) (old new : Table K V),
        names[i]? = some entry.1 ∧ olds[i]? = some old ∧ news[i]? = some new ∧
          (∀ j, i < j → names[j]? ≠ some entry.1) ∧ entry.2 = ltdiff old new := by
  induction names generalizing cache olds news with
  | nil => exact ⟨[], rfl, List.nodup_nil, by simp, by simp⟩
  | cons name names ih =>
      obtain ⟨old, olds, rfl⟩ := List.exists_cons_of_length_eq_add_one oldLength
      obtain ⟨new, news, rfl⟩ := List.exists_cons_of_length_eq_add_one newLength
      obtain ⟨rest, done, distinct, keys, entries⟩ := ih olds news
        (commit cache name (ltdiff old new) new)
        (by simpa using oldLength) (by simpa using newLength)
      have later : (rest.any fun entry => entry.1 = name) = true ↔ name ∈ names := by
        rw [← keys name, List.any_eq_true, List.mem_map]
        simp
      have shift : ∀ (i : Nat) (n : Name), (∀ j, i + 1 < j → (name :: names)[j]? ≠ some n) ↔
          ∀ j, i < j → names[j]? ≠ some n := by
        intro i n
        constructor
        · intro last j less
          exact last (j + 1) (by omega)
        · intro last j less
          obtain ⟨k, rfl⟩ : ∃ k, j = k + 1 := ⟨j - 1, by omega⟩
          exact last k (by omega)
      have tail : ∀ entry, entry ∈ rest ↔ ∃ (i : Nat) (o w : Table K V),
          (name :: names)[i + 1]? = some entry.1 ∧ (old :: olds)[i + 1]? = some o ∧
            (new :: news)[i + 1]? = some w ∧
            (∀ j, i + 1 < j → (name :: names)[j]? ≠ some entry.1) ∧ entry.2 = ltdiff o w := by
        intro entry
        simp only [List.getElem?_cons_succ, shift]
        exact entries entry
      by_cases again : name ∈ names
      · refine ⟨rest, by simp [closeLoop, done, later.mpr again], distinct, ?_, ?_⟩
        · intro n
          rw [keys n, List.mem_cons]
          exact ⟨.inr, fun member => member.elim (fun same => same ▸ again) id⟩
        · intro entry
          rw [tail entry]
          constructor
          · rintro ⟨i, o, w, found⟩
            exact ⟨i + 1, o, w, found⟩
          · rintro ⟨i, o, w, atName, atOld, atNew, last, change⟩
            cases i with
            | succ i => exact ⟨i, o, w, atName, atOld, atNew, last, change⟩
            | zero =>
                obtain ⟨j, atJ⟩ := List.mem_iff_getElem?.mp again
                have same : name = entry.1 := by simpa using atName
                exact absurd (same ▸ atJ) (last (j + 1) (Nat.succ_pos j))
      · have absent : (rest.any fun entry => entry.1 = name) = false := by
          rw [← Bool.not_eq_true, later]
          exact again
        refine ⟨(name, ltdiff old new) :: rest, by simp [closeLoop, done, absent], ?_, ?_, ?_⟩
        · exact List.nodup_cons.mpr ⟨fun member => again ((keys name).mp member), distinct⟩
        · intro n
          rw [List.map_cons, List.mem_cons, List.mem_cons, keys n]
        · intro entry
          rw [List.mem_cons, tail entry]
          constructor
          · rintro (rfl | ⟨i, o, w, found⟩)
            · refine ⟨0, old, new, rfl, rfl, rfl, ?_, rfl⟩
              intro j less atJ
              obtain ⟨k, rfl⟩ : ∃ k, j = k + 1 := ⟨j - 1, by omega⟩
              exact again (List.mem_of_getElem? atJ)
            · exact ⟨i + 1, o, w, found⟩
          · rintro ⟨i, o, w, atName, atOld, atNew, last, change⟩
            cases i with
            | succ i => exact .inr ⟨i, o, w, atName, atOld, atNew, last, change⟩
            | zero =>
                simp only [List.getElem?_cons_zero, Option.some.injEq] at atName atOld atNew
                subst atName atOld atNew
                exact .inl (Prod.ext rfl change)

namespace Query

/-- A reply without holes has one border, its length. -/
theorem IsBorder.eq_length {addrs : List (Option Addr)} {n : Nat} (border : IsBorder addrs n)
    (complete : ∀ addr ∈ addrs, addr.isSome) : n = addrs.length := by
  obtain ⟨top, hole⟩ := border
  have notBelow : ¬ n < addrs.length := by
    intro below
    obtain ⟨addr, present⟩ := Option.isSome_iff_exists.mp (complete _ (List.getElem_mem below))
    exact hole addr (by rw [List.getElem?_eq_getElem below, present])
  have notAbove : n = 0 ∨ n - 1 < addrs.length := by
    refine top.imp_right ?_
    rintro ⟨addr, present⟩
    exact (List.getElem?_eq_some_iff.mp present).1
  omega

end Query

namespace Scope

variable {kinds : Kinds K V} {s : Scope Name Addr K V} {q : Query Name Addr K V}

/-! ## The loop over the lock reply -/

/-- Where the loop stands after the answers of its first cells. -/
structure Walk (s : Scope Name Addr K V) (q : Query Name Addr K V) : Prop where
  names : q.names = s.names
  addrs : q.addrs = s.names.map s.state
  border : q.border = s.border
  news : q.newList = q.oldList.map Table.clone
  bound : q.oldList.length ≤ s.names.length
  read : ∀ i < q.oldList.length, (∃ name, s.names[i]? = some name ∧ (s.state name).isSome) ∧
    q.oldList[i]? = s.read i

theorem Walk.start (s : Scope Name Addr K V) :
    s.Walk (.start s.names (s.names.map s.state) s.border) where
  names := rfl
  addrs := rfl
  border := rfl
  news := rfl
  bound := Nat.zero_le _
  read := fun _ less => absurd less (Nat.not_lt_zero _)

/-- The loop ends before the last name at a name without a cell only. -/
theorem Walk.hole (walk : s.Walk q) (done : q.awaits = none)
    (less : q.oldList.length < s.names.length) : ∃ name ∈ s.names, s.state name = none := by
  have atName := List.getElem?_eq_getElem less
  refine ⟨_, List.getElem_mem less, ?_⟩
  cases state : s.state s.names[q.oldList.length] with
  | none => rfl
  | some addr =>
      have awaits : q.awaits = some (s.names[q.oldList.length], addr) := by
        simp [Query.awaits, walk.names, walk.addrs, atName, state]
      rw [awaits] at done
      cases done

theorem Walk.next {name : Name} {addr : Addr} (walk : s.Walk q)
    (awaits : q.awaits = some (name, addr)) :
    q.oldList.length < s.names.length ∧ s.names[q.oldList.length]? = some name ∧
      (s.state name).isSome := by
  unfold Query.awaits at awaits
  rw [walk.names, walk.addrs, List.getElem?_map] at awaits
  cases atName : s.names[q.oldList.length]? with
  | none => simp [atName] at awaits
  | some n =>
      cases state : s.state n with
      | none => simp [atName, state] at awaits
      | some a =>
          have same : n = name ∧ a = addr := by simpa [atName, state] using awaits
          obtain ⟨rfl, rfl⟩ := same
          exact ⟨(List.getElem?_eq_some_iff.mp atName).1, rfl, by simp [state]⟩

theorem Walk.receive {name : Name} {old : Table K V} (walk : s.Walk q)
    (less : q.oldList.length < s.names.length)
    (atName : s.names[q.oldList.length]? = some name) (present : (s.state name).isSome)
    (read : s.read q.oldList.length = some old) :
    s.Walk { q with oldList := q.oldList ++ [old], newList := q.newList ++ [old.clone] } where
  names := walk.names
  addrs := walk.addrs
  border := walk.border
  news := by simp [walk.news]
  bound := by simpa [Nat.succ_le_iff] using less
  read := by
    intro i below
    simp only [List.length_append, List.length_singleton] at below
    rcases Nat.lt_succ_iff_lt_or_eq.mp below with before | rfl
    · rw [List.getElem?_append_left before]
      exact walk.read i before
    · exact ⟨⟨name, atName, present⟩, by simp [read]⟩

/-- The loop ends with a walk that awaits no cell, or raises at an answer it cannot use. -/
theorem loop_spec (fuel : Nat) (walk : s.Walk q)
    (enough : q.oldList.length + fuel = s.names.length) :
    (∀ q', s.loop fuel q = some q' → s.Walk q' ∧ q'.awaits = none) ∧
      (s.loop fuel q = none → ∃ i < s.names.length, s.read i = none) := by
  induction fuel generalizing q with
  | zero =>
      refine ⟨?_, by simp [loop]⟩
      rintro q' ⟨⟩
      refine ⟨walk, ?_⟩
      have beyond : s.names[q.oldList.length]? = none :=
        List.getElem?_eq_none (by omega)
      simp [Query.awaits, walk.names, beyond]
  | succ fuel ih =>
      unfold loop
      cases awaits : q.awaits with
      | none =>
          refine ⟨?_, by simp⟩
          rintro q' ⟨⟩
          exact ⟨walk, awaits⟩
      | some entry =>
          obtain ⟨name, addr⟩ := entry
          obtain ⟨less, atName, present⟩ := walk.next awaits
          rcases atMet : s.met q.oldList.length with ⟨cache, answer⟩
          cases answer with
          | none =>
              have unread : s.read q.oldList.length = none := by simp [read, atName, atMet]
              exact ⟨by simp, fun _ => ⟨_, less, unread⟩⟩
          | some answer =>
              cases old : (updateState cache name answer).2 with
              | none =>
                  have unread : s.read q.oldList.length = none := by
                    simp [read, atName, atMet, old]
                  simp only [Query.receive, old]
                  exact ⟨by simp, fun _ => ⟨_, less, unread⟩⟩
              | some old' =>
                  have read : s.read q.oldList.length = some old' := by
                    simp [read, atName, atMet, old]
                  simp only [Query.receive, old, Option.map_some, Option.bind_some]
                  exact ih (walk.receive less atName present read)
                    (by simp only [List.length_append, List.length_singleton]; omega)

theorem query_spec (s : Scope Name Addr K V) :
    (∀ q, s.query = some q → s.Walk q ∧ q.awaits = none) ∧
      (s.query = none → ∃ i < s.names.length, s.read i = none) :=
  loop_spec s.names.length (.start s) (by simp [Query.start])

theorem filterMap_range_getElem? {α : Type} (l : List α) :
    (List.range l.length).filterMap (fun i => l[i]?) = l := by
  induction l with
  | nil => rfl
  | cons x l ih =>
      rw [List.length_cons, List.range_succ_eq_map]
      simpa [List.filterMap_map, Function.comp_def] using ih

/-- A query that got a table for every name has read just these tables. -/
theorem Walk.olds_eq (walk : s.Walk q) (full : q.oldList.length = s.names.length) :
    s.olds = q.oldList := by
  rw [olds, ← full]
  refine (List.filterMap_congr ?_).trans (filterMap_range_getElem? q.oldList)
  intro i member
  exact ((walk.read i (List.mem_range.mp member)).2).symm

/-! ## When the lock is released -/

theorem pending_of_full (full : q.newList.length = q.border) (some' : q.newList ≠ []) :
    pending q = [q.newList.length - 1] := by
  obtain ⟨n, length⟩ : ∃ n, q.newList.length = n + 1 :=
    ⟨q.newList.length - 1, by have := List.length_pos_iff.mpr some'; omega⟩
  have before : (List.range n).filter (fun i => q.closes i) = [] := by
    refine List.filter_eq_nil_iff.mpr ?_
    intro i member closes
    have less := List.mem_range.mp member
    exact (of_decide_eq_true closes).2 (by omega)
  have last : q.closes n := ⟨by omega, by omega⟩
  rw [pending, length, List.range_succ, List.filter_append, before]
  simp [last]

theorem unlock_eq_some {cache : Cache Name K V} {patchMap : List (Name × Option (Diff K V))} :
    q.unlock kinds cache = some patchMap ↔
      (List.zipWith (fun old new => kinds.diffReturns (old.depth + 1) old new)
        q.oldList q.newList).all id ∧
      (q.close cache).2 = some patchMap ∧ ∀ entry ∈ patchMap, kinds.packsChange entry.2 := by
  unfold Query.unlock
  split
  · next plain => simp [plain, Option.filter_eq_some_iff]
  · next plain => simp [plain]

theorem plain_iff (olds news : List (Table K V)) :
    (List.zipWith (fun old new => kinds.diffReturns (old.depth + 1) old new) olds news).all id ↔
      ∀ (i : Nat) old new, olds[i]? = some old → news[i]? = some new →
        kinds.diffReturns (old.depth + 1) old new := by
  rw [List.all_eq_true]
  constructor
  · intro all i old new atOld atNew
    refine all _ (List.mem_of_getElem? (i := i) ?_)
    rw [List.getElem?_zipWith_eq_some]
    exact ⟨old, new, atOld, atNew, rfl⟩
  · intro all result member
    obtain ⟨i, atResult⟩ := List.mem_iff_getElem?.mp member
    obtain ⟨old, new, atOld, atNew, rfl⟩ := List.getElem?_zipWith_eq_some.mp atResult
    exact all i old new atOld atNew

/-- A worker that has sent an `unlock` had an orderly scope. -/
theorem orderly_of_unlock {patchMap : List (Name × Option (Diff K V))}
    (sent : patchMap ∈ s.unlocks kinds) : s.Orderly kinds := by
  unfold unlocks at sent
  cases done : s.query with
  | none => simp [done] at sent
  | some q =>
      obtain ⟨walk, finished⟩ := s.query_spec.1 q done
      simp only [done] at sent
      obtain ⟨i, closing, unlock⟩ := List.mem_filterMap.mp sent
      cases ending : (s.body q.newList).2 with
      | raised => simp [ending, Ending.closed] at closing
      | returned =>
          obtain ⟨plain, closed, packs⟩ := unlock_eq_some.mp unlock
          have sameLength : (s.body q.newList).1.1.length = q.oldList.length := by
            rw [(s.body q.newList).1.2, walk.news, List.length_map]
          have full : q.oldList.length = s.names.length := by
            refine Nat.le_antisymm walk.bound (Nat.not_lt.mp fun short => ?_)
            have raises : (Query.closeLoop s.later q.names q.oldList
                (s.body q.newList).1.1).2 = none :=
              Query.closeLoop_short s.later sameLength.symm (by rw [walk.names]; exact short)
            exact nomatch closed.symm.trans raises
          have olds := walk.olds_eq full
          have lefts : s.lefts = (s.body q.newList).1.1 := by rw [Scope.lefts, olds, walk.news]
          obtain ⟨patchMap', closed', -, -, entries⟩ := Query.closeLoop_entries
            q.names q.oldList (s.body q.newList).1.1 s.later
            (by rw [walk.names]; exact full) (by rw [walk.names, sameLength]; exact full)
          obtain rfl : patchMap' = patchMap := Option.some.inj (closed'.symm.trans closed)
          constructor
          · intro empty
            have none_left : (s.body q.newList).1.1.length = 0 := by
              rw [sameLength, full, empty, List.length_nil]
            simp [ending, Ending.closed, pending, none_left] at closing
          · intro name member
            obtain ⟨j, atJ⟩ := List.mem_iff_getElem?.mp member
            have less := (List.getElem?_eq_some_iff.mp atJ).1
            obtain ⟨⟨n, atN, present⟩, -⟩ := walk.read j (by omega)
            have same : name = n := Option.some.inj (atJ.symm.trans atN)
            rw [same]
            exact present
          · intro j less
            rw [← (walk.read j (by omega)).2, List.getElem?_eq_getElem (by omega)]
            rfl
          · rw [olds, ← walk.news]
            exact ending
          · rw [olds, lefts]
            exact (plain_iff _ _).mp plain
          · intro j name old left atName atOld atLeft last
            rw [olds] at atOld
            rw [lefts] at atLeft
            refine packs (name, ltdiff old left) ((entries _).mpr ?_)
            rw [walk.names]
            exact ⟨j, old, left, atName, atOld, atLeft, last, rfl⟩

/-- An orderly scope releases its lock. -/
theorem Orderly.released (orderly : s.Orderly kinds) : s.Released kinds := by
  cases done : s.query with
  | none =>
      obtain ⟨i, less, unread⟩ := s.query_spec.2 done
      have read := orderly.answered i less
      rw [unread] at read
      exact nomatch read
  | some q =>
      obtain ⟨walk, finished⟩ := s.query_spec.1 q done
      have full : q.oldList.length = s.names.length := by
        refine Nat.le_antisymm walk.bound (Nat.not_lt.mp fun short => ?_)
        obtain ⟨name, member, missing⟩ := walk.hole finished short
        have present := orderly.present name member
        rw [missing] at present
        exact nomatch present
      have olds := walk.olds_eq full
      have returned : (s.body q.newList).2 = .returned := by
        rw [walk.news, ← olds]
        exact orderly.returned
      have lefts : s.lefts = (s.body q.newList).1.1 := by rw [Scope.lefts, olds, walk.news]
      have sameLength : (s.body q.newList).1.1.length = q.oldList.length := by
        rw [(s.body q.newList).1.2, walk.news, List.length_map]
      have border : q.border = s.names.length := by
        rw [walk.border, s.isBorder.eq_length, List.length_map]
        intro addr member
        obtain ⟨name, listed, rfl⟩ := List.mem_map.mp member
        exact orderly.present name listed
      obtain ⟨patchMap, closed, distinct, keys, entries⟩ := Query.closeLoop_entries
        q.names q.oldList (s.body q.newList).1.1 s.later
        (by rw [walk.names]; exact full) (by rw [walk.names, sameLength]; exact full)
      rw [walk.names] at keys entries
      have unlock : Query.unlock kinds { q with newList := (s.body q.newList).1.1 } s.later =
          some patchMap := by
        refine unlock_eq_some.mpr ⟨(plain_iff _ _).mpr ?_, closed, ?_⟩
        · intro i old left atOld atLeft
          exact orderly.plain i old left (olds ▸ atOld) (lefts ▸ atLeft)
        · intro entry member
          obtain ⟨i, old, left, atName, atOld, atLeft, last, change⟩ := (entries entry).mp member
          rw [change]
          exact orderly.packs i entry.1 old left atName (olds ▸ atOld) (lefts ▸ atLeft) last
      have some' : (s.body q.newList).1.1 ≠ [] := by
        refine List.ne_nil_of_length_pos ?_
        rw [sameLength, full]
        exact List.length_pos_iff.mpr orderly.named
      have pending := pending_of_full (q := { q with newList := (s.body q.newList).1.1 })
        (by rw [border, ← full]; exact sameLength) some'
      have ending : s.ending = .returned := by simp [Scope.ending, done, returned]
      refine ⟨patchMap, ?_, distinct, keys, fun raised => ?_⟩
      · simp [unlocks, done, returned, Ending.closed, pending, unlock]
      · rw [ending] at raised
        cases raised

/--
The worker sends one `unlock` with exactly the names it was granted, without a
patch after an error, if and only if the scope is orderly.
-/
theorem released_iff (kinds : Kinds K V) (s : Scope Name Addr K V) :
    s.Released kinds ↔ s.Orderly kinds := by
  constructor
  · rintro ⟨patchMap, sent, -⟩
    have member : patchMap ∈ s.unlocks kinds := by
      rw [sent]
      exact List.mem_singleton.mpr rfl
    exact orderly_of_unlock member
  · exact Orderly.released

/-- Without an orderly scope the worker sends no `unlock` at all. -/
theorem unlocks_of_not_orderly (disorderly : ¬ s.Orderly kinds) : s.unlocks kinds = [] := by
  cases sent : s.unlocks kinds with
  | nil => rfl
  | cons patchMap rest =>
      exact absurd (orderly_of_unlock (by rw [sent]; exact List.mem_cons_self)) disorderly

end Scope

end WindLtask
