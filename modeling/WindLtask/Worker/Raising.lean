import WindLtask.Cell.Raising

/-!
# An update that raises

`update_state` of `lualib/starre.lua` on references: the patches of an answer are
applied to the table that `state_map` holds, in place and one after the other.
Where no patch raises this is the `updateState` of the values; where one raises,
the version of the answer is in `state_version` already, and `state_map` refers to
a table that is partly patched.
-/

set_option linter.unusedSectionVars false

namespace WindLtask

open Lib

variable {Name K V : Type} [DecidableEq Name] [DecidableEq K] [DecidableEq V]

/-- The caches of a worker, and the tables that they refer to. -/
structure SharedCache (Name K V : Type) where
  heap : Heap K V
  stateMap : Name → Option Nat
  stateVersion : Name → Option Nat

namespace Heap

/-- The result `state` of `ltask.call`. -/
def receiveState (state : Option (Table K V)) (h : Heap K V) : Heap K V × Option Nat :=
  match state with
  | some t =>
      let (h, a) := unpackTable t h
      (h, some a)
  | none => (h, none)

/-- The result `patches` of `ltask.call`. -/
def receivePatches (patches : Option (List (Diff K V))) (h : Heap K V) :
    Heap K V × Option (List (Stored K V)) :=
  match patches with
  | some patches =>
      let (h, list) := unpackAll patches h
      (h, some list)
  | none => (h, none)

/-- The loop over `ipairs(patches)` in `update_state`, and whether it ends. -/
def replayAll : List (Stored K V) → Nat → Heap K V → Heap K V × Bool
  | [], _, h => (h, true)
  | diff :: rest, s, h =>
      let (h, returned) := tablePatch diff s h
      if returned then replayAll rest s h else (h, false)

end Heap

namespace SharedCache

/-- How `update_state` ends. -/
inductive Ending where
  | returned (result : Option Nat)
  /-- `assert(state_map[name])` or `ipairs(patches)` raises -/
  | failed
  /-- `ltdiff.patch` raises -/
  | patchRaised
  deriving DecidableEq, Repr

/-- The caches of a worker that has just started. -/
def empty : SharedCache Name K V where
  heap := ⟨fun _ => ∅, 0⟩
  stateMap := fun _ => none
  stateVersion := fun _ => none

/-- `update_state(name, version, state, patches)`. -/
def updateState (w : SharedCache Name K V) (name : Name) (version : Nat) (state : Option Nat)
    (patches : Option (List (Stored K V))) : SharedCache Name K V × Ending :=
  if w.stateVersion name = some version then (w, .returned (w.stateMap name))
  else
    let w := { w with
      stateVersion := Function.update w.stateVersion name (some version) }
    match state with
    | some state =>
        ({ w with stateMap := Function.update w.stateMap name (some state) },
          .returned (some state))
    | none =>
        match w.stateMap name, patches with
        | some s, some patches =>
            let (h, returned) := Heap.replayAll patches s w.heap
            let w := { w with heap := h }
            if returned then
              ({ w with stateMap := Function.update w.stateMap name (some s) },
                .returned (some s))
            else (w, .patchRaised)
        | _, _ => (w, .failed)

/-- `ltask.call(addr, "query", ..)` returns, and its results go to `update_state`. -/
def receive (w : SharedCache Name K V) (name : Name) (answer : Answer K V) :
    SharedCache Name K V × Ending :=
  let (h, state) := Heap.receiveState answer.state w.heap
  let (h, patches) := Heap.receivePatches answer.patches h
  { w with heap := h }.updateState name answer.version state patches

end SharedCache

theorem rel_imp {α β : Type} {r r' : α → β → Prop} {x : Option α} {y : Option β}
    (rel : Option.Rel r x y) (each : ∀ a b, r a b → r' a b) : Option.Rel r' x y := by
  cases rel with
  | none => exact .none
  | some held => exact .some (each _ _ held)

/-! ## The patches of an answer -/

namespace Heap

variable {h h' : Heap K V} {a bound : Nat} {list : List (Stored K V)} {diffs : List (Diff K V)}

/-- Differences that have been unpacked one after the other, the first one from the bound on. -/
inductive Waiting (h : Heap K V) : Nat → List (Stored K V) → List (Diff K V) → Prop where
  | nil {bound : Nat} (within : bound ≤ h.free) : Waiting h bound [] []
  | cons {bound next : Nat} {stored : Stored K V} {diff : Diff K V} {list : List (Stored K V)}
      {diffs : List (Diff K V)} (grows : bound ≤ next)
      (fresh : ∀ path l, stored.Reaches h.get path l → bound ≤ l ∧ l < next)
      (tree : stored.IsTree h.get) (shown : stored.Shows h.get diff)
      (later : Waiting h next list diffs) : Waiting h bound (stored :: list) (diff :: diffs)

/-- They stay when only locations below the bound change. -/
theorem Waiting.frame (waiting : Waiting h bound list diffs) (free : h'.free = h.free)
    (old : ∀ l, bound ≤ l → h'.get l = h.get l) : Waiting h' bound list diffs := by
  induction waiting with
  | nil within => exact .nil (free ▸ within)
  | @cons bound next stored diff list diffs grows fresh tree shown later ih =>
      have agrees : Stored.Agrees h.get h'.get stored :=
        fun path l reaches => old l (fresh path l reaches).1
      refine .cons grows ?_ (tree.frame agrees) (shown.frame agrees) ?_
      · exact fun path l reaches => fresh path l (agrees.reaches_iff.mp reaches)
      · exact ih fun l above => old l (Nat.le_trans grows above)

theorem Waiting.mono {low : Nat} (waiting : Waiting h bound list diffs) (less : low ≤ bound) :
    Waiting h low list diffs := by
  cases waiting with
  | nil within => exact .nil (Nat.le_trans less within)
  | cons grows fresh tree shown later =>
      refine .cons (Nat.le_trans less grows) (fun path l reaches => ?_) tree shown later
      exact (fresh path l reaches).imp_left (Nat.le_trans less)

theorem unpackAll_spec (diffs : List (Diff K V)) (h : Heap K V) :
    h.free ≤ (unpackAll diffs h).1.free ∧
      (∀ l < h.free, (unpackAll diffs h).1.get l = h.get l) ∧
      Waiting (unpackAll diffs h).1 h.free (unpackAll diffs h).2 diffs := by
  induction diffs generalizing h with
  | nil => exact ⟨Nat.le_refl _, fun _ _ => rfl, .nil (Nat.le_refl _)⟩
  | cons diff rest ih =>
      have first := unpackDiff_spec diff h
      obtain ⟨grows, old, waiting⟩ := ih (unpackDiff diff h).1
      simp only [unpackAll]
      generalize unpackDiff diff h = one at *
      obtain ⟨h₁, stored⟩ := one
      generalize unpackAll rest h₁ = two at *
      obtain ⟨h₂, list⟩ := two
      simp only at *
      have agrees : Stored.Agrees h₁.get h₂.get stored :=
        fun path l reaches => old l (first.fresh path l reaches).2
      refine ⟨Nat.le_trans first.grows grows, fun l less => ?_, .cons first.grows ?_
        (first.tree.frame agrees) (first.shown.frame agrees) waiting⟩
      · rw [old l (Nat.lt_of_lt_of_le less first.grows), first.old l less]
      · exact fun path l reaches => first.fresh path l (agrees.reaches_iff.mp reaches)

/-- What an answer is once it has been unpacked. -/
structure Received (h h' : Heap K V) (answer : Answer K V) (state : Option Nat)
    (patches : Option (List (Stored K V))) : Prop where
  grows : h.free ≤ h'.free
  old : ∀ l < h.free, h'.get l = h.get l
  state : Option.Rel (fun t a => h'.Holds h'.free a t.denote) answer.state state
  patches : Option.Rel (fun diffs list => Waiting h' h.free list diffs) answer.patches patches

theorem receiveState_spec (state : Option (Table K V)) (h : Heap K V) :
    h.free ≤ (receiveState state h).1.free ∧
      (∀ l < h.free, (receiveState state h).1.get l = h.get l) ∧
      Option.Rel (fun t a => (receiveState state h).1.Holds (receiveState state h).1.free a
        t.denote) state (receiveState state h).2 := by
  cases state with
  | none => exact ⟨Nat.le_refl _, fun _ _ => rfl, .none⟩
  | some t =>
      obtain ⟨holds, grows, old⟩ := unpackTable_spec t h
      exact ⟨grows, old, .some holds⟩

theorem receivePatches_spec (patches : Option (List (Diff K V))) (h : Heap K V) :
    h.free ≤ (receivePatches patches h).1.free ∧
      (∀ l < h.free, (receivePatches patches h).1.get l = h.get l) ∧
      Option.Rel (fun diffs list => Waiting (receivePatches patches h).1 h.free list diffs)
        patches (receivePatches patches h).2 := by
  cases patches with
  | none => exact ⟨Nat.le_refl _, fun _ _ => rfl, .none⟩
  | some patches =>
      obtain ⟨grows, old, waiting⟩ := unpackAll_spec patches h
      exact ⟨grows, old, .some waiting⟩

/-- Both results, in the memory that the worker then has. -/
theorem received (answer : Answer K V) {h h₁ h₂ : Heap K V} {state : Option Nat}
    {patches : Option (List (Stored K V))} (first : receiveState answer.state h = (h₁, state))
    (second : receivePatches answer.patches h₁ = (h₂, patches)) :
    Received h h₂ answer state patches := by
  obtain ⟨grows, old, holds⟩ := receiveState_spec answer.state h
  obtain ⟨grows', old', waits⟩ := receivePatches_spec answer.patches h₁
  rw [first] at grows old holds
  rw [second] at grows' old' waits
  refine ⟨Nat.le_trans grows grows', fun l less => ?_, ?_, ?_⟩
  · rw [old' l (Nat.lt_of_lt_of_le less grows), old l less]
  · exact rel_imp holds fun t a there => (there.frame old').mono grows'
  · exact rel_imp waits fun diffs list waiting => waiting.mono grows

/-- The loop ends exactly when every patch fits, and leaves the table that the patches make. -/
theorem replayAll_spec {t : Table K V} (waiting : Waiting h bound list diffs)
    (holds : Holds h bound a t.denote) (distinct : ∀ diff ∈ diffs, diff.Distinct) :
    ((replayAll list a h).2 = true ↔ Diff.FitsAll diffs t) ∧
      (Diff.FitsAll diffs t → ∃ final, replay t diffs = some final ∧
        Holds (replayAll list a h).1 (replayAll list a h).1.free a final.denote) := by
  induction list generalizing h bound diffs t with
  | nil =>
      cases waiting with
      | nil within =>
          exact ⟨⟨fun _ => trivial, fun _ => rfl⟩, fun _ => ⟨t, rfl, holds.mono within⟩⟩
  | cons stored list ih =>
      cases waiting with
      | @cons _ next _ diff _ diffs grows fresh tree shown later =>
          have fit : Fit h a stored diff t.denote :=
            holds.fit tree shown (distinct diff List.mem_cons_self) fun path l reaches =>
              (fresh path l reaches).1
          have returns := tablePatch_returns_iff fit
          simp only [replayAll]
          by_cases fits : diff.Fits t
          · obtain ⟨patched, done, after⟩ := tablePatch_table fit fits
            have holdsNow := after.holds fit holds grows fun path l reaches =>
              (fresh path l reaches).2
            -- the other patches lie above everything that this one has changed
            have waitingNow : Waiting (tablePatch stored a h).1 next list diffs := by
              refine later.frame after.free fun l above => after.frame l ?_ fun p reach => ?_
              · have root := holds.root
                omega
              · have known := holds.known p l reach
                omega
            obtain ⟨ends, leaves⟩ := ih waitingNow holdsNow fun d member =>
              distinct d (List.mem_cons_of_mem _ member)
            rw [if_pos (returns.mpr fits)]
            have whole : Diff.FitsAll (diff :: diffs) t ↔ Diff.FitsAll diffs patched := by
              simp [Diff.FitsAll, fits, done]
            rw [whole, replay_cons, done]
            exact ⟨ends, leaves⟩
          · rw [if_neg (mt returns.mp fits)]
            have never : ¬ Diff.FitsAll (diff :: diffs) t := fun all => fits all.1
            exact ⟨⟨fun ended => absurd ended Bool.false_ne_true, fun all => absurd all never⟩,
              fun all => absurd all never⟩

end Heap

/-! ## `update_state` -/

/-- An answer is a message: no difference of its list has a key twice. -/
def Answer.Distinct (answer : Answer K V) : Prop :=
  ∀ patches, answer.patches = some patches → ∀ diff ∈ patches, diff.Distinct

/-- Where `update_state` replays patches on a cached table, they fit it one after the other. -/
def Cache.Takes (cache : Cache Name K V) (name : Name) (answer : Answer K V) : Prop :=
  cache.stateVersion name ≠ some answer.version → answer.state = none →
    ∀ t patches, cache.stateMap name = some t → answer.patches = some patches →
      Diff.FitsAll patches t

namespace SharedCache

/-- The entry of `name` is that of the cache, with a tree for its table. -/
structure Shows (w : SharedCache Name K V) (cache : Cache Name K V) (name : Name) : Prop where
  version : w.stateVersion name = cache.stateVersion name
  map : Option.Rel (fun a t => w.heap.Holds w.heap.free a t.denote) (w.stateMap name)
    (cache.stateMap name)

/--
`update_state` on the entry of a name is all or nothing: where a patch raises, the
version, the reference and the table below it are as they were.
-/
def AllOrNothing (w : SharedCache Name K V) (cache : Cache Name K V) (name : Name)
    (answer : Answer K V) : Prop :=
  (w.receive name answer).2 = .patchRaised →
    (w.receive name answer).1.stateVersion name = w.stateVersion name ∧
    (w.receive name answer).1.stateMap name = w.stateMap name ∧
    (w.receive name answer).1.Shows cache name

variable {w : SharedCache Name K V} {cache : Cache Name K V} {name : Name} {answer : Answer K V}

/-- A patch raises only where the version of the answer has been stored. -/
theorem version_of_raise {version : Nat} {state : Option Nat}
    {patches : Option (List (Stored K V))}
    (raised : (w.updateState name version state patches).2 = .patchRaised) :
    w.stateVersion name ≠ some version ∧
      (w.updateState name version state patches).1.stateVersion name = some version := by
  unfold updateState at *
  split_ifs at * with current
  refine ⟨current, ?_⟩
  cases state with
  | some state => cases raised
  | none =>
      cases atMap : w.stateMap name with
      | none => simp [atMap] at raised
      | some s =>
          cases patches with
          | none => simp [atMap] at raised
          | some patches =>
              simp only [atMap] at raised ⊢
              split_ifs at * with returned
              exact Function.update_self _ _ _

/-- What `update_state` does is what it does to the values, unless a patch raises. -/
theorem updateState_spec {bound : Nat} {state : Option Nat} {patches : Option (List (Stored K V))}
    (sameVersion : w.stateVersion name = cache.stateVersion name)
    (sameMap : Option.Rel (fun a t => w.heap.Holds bound a t.denote) (w.stateMap name)
      (cache.stateMap name)) (within : bound ≤ w.heap.free)
    (gotState : Option.Rel (fun t a => w.heap.Holds w.heap.free a t.denote) answer.state state)
    (gotPatches : Option.Rel (fun diffs list => w.heap.Waiting bound list diffs) answer.patches
      patches) (distinct : answer.Distinct) :
    ((w.updateState name answer.version state patches).2 = .patchRaised ↔
        ¬ cache.Takes name answer) ∧
      (cache.Takes name answer → (w.updateState name answer.version state patches).1.Shows
        (WindLtask.updateState cache name answer).1 name) := by
  obtain ⟨version, state', patches'⟩ := answer
  dsimp only at *
  generalize atMap : w.stateMap name = map, atMap' : cache.stateMap name = map' at sameMap
  have mapNow : Option.Rel (fun a t => w.heap.Holds w.heap.free a t.denote) map map' :=
    rel_imp sameMap fun a t holds => holds.mono within
  unfold SharedCache.updateState WindLtask.updateState
  rw [sameVersion]
  by_cases current : cache.stateVersion name = some version
  · rw [if_pos current, if_pos current]
    refine ⟨by simp [Cache.Takes, current], fun _ => ⟨sameVersion, ?_⟩⟩
    rwa [atMap, atMap']
  · rw [if_neg current, if_neg current]
    have bumped : Function.update w.stateVersion name (some version) name =
        Function.update cache.stateVersion name (some version) name := by simp
    cases gotState with
    | some holds => exact ⟨by simp [Cache.Takes], fun _ => ⟨bumped, by simpa using holds⟩⟩
    | none =>
        simp only [atMap, atMap']
        cases sameMap with
        | none =>
            refine ⟨by simp [Cache.Takes, atMap'], fun _ => ⟨bumped, ?_⟩⟩
            rwa [← atMap, ← atMap'] at mapNow
        | @some a t holds =>
            cases gotPatches with
            | none =>
                refine ⟨by simp [Cache.Takes], fun _ => ⟨bumped, ?_⟩⟩
                rwa [← atMap, ← atMap'] at mapNow
            | @some diffs list waiting =>
                have takes : cache.Takes name ⟨version, none, some diffs⟩ ↔
                    Diff.FitsAll diffs t := by
                  simp [Cache.Takes, current, atMap']
                obtain ⟨ends, leaves⟩ := Heap.replayAll_spec waiting holds (distinct diffs rfl)
                rw [takes, ← ends]
                dsimp only
                generalize Heap.replayAll list a w.heap = result at *
                obtain ⟨h, returned⟩ := result
                cases returned with
                | false => simp
                | true =>
                    obtain ⟨final, replayed, holdsNow⟩ := leaves (ends.mp rfl)
                    refine ⟨by simp, fun _ => ?_⟩
                    rw [replayed]
                    exact ⟨bumped, by simpa using holdsNow⟩

theorem receive_spec (shows : w.Shows cache name) (distinct : answer.Distinct) :
    ((w.receive name answer).2 = .patchRaised ↔ ¬ cache.Takes name answer) ∧
      (cache.Takes name answer →
        (w.receive name answer).1.Shows (WindLtask.updateState cache name answer).1 name) := by
  unfold receive
  generalize first : Heap.receiveState answer.state w.heap = one
  obtain ⟨h₁, state⟩ := one
  dsimp only
  generalize second : Heap.receivePatches answer.patches h₁ = two
  obtain ⟨h₂, patches⟩ := two
  obtain ⟨grows, old, gotState, gotPatches⟩ := Heap.received answer first second
  obtain ⟨sameVersion, sameMap⟩ := shows
  have sameMap' : Option.Rel (fun a t => h₂.Holds w.heap.free a t.denote) (w.stateMap name)
      (cache.stateMap name) :=
    rel_imp sameMap fun a t holds => holds.frame old
  exact updateState_spec (w := { w with heap := h₂ }) sameVersion sameMap' grows gotState
    gotPatches distinct

theorem allOrNothing_iff_takes (shows : w.Shows cache name) (distinct : answer.Distinct) :
    w.AllOrNothing cache name answer ↔ cache.Takes name answer := by
  obtain ⟨raises, -⟩ := receive_spec shows distinct
  constructor
  · intro whole
    by_contra misfit
    have raised := raises.mpr misfit
    obtain ⟨differs, stored⟩ := version_of_raise raised
    exact differs ((whole raised).1 ▸ stored)
  · intro takes raised
    exact absurd takes (raises.mp raised)

/-! ## The two callers of `ltdiff.patch` -/

/--
Applying a difference to a cell is all or nothing exactly when it fits the state,
and so is an update of a worker exactly when every patch that it replays fits.
-/
theorem allOrNothing_iff {s : SharedCell K V} {t : Table K V} {diff : Diff K V}
    (state : s.heap.Holds s.heap.free s.t t.denote) (keys : diff.Distinct)
    (entry : w.Shows cache name) (answerKeys : answer.Distinct) :
    (s.AllOrNothing t diff ↔ diff.Fits t) ∧
      (w.AllOrNothing cache name answer ↔ cache.Takes name answer) :=
  ⟨SharedCell.allOrNothing_iff_fits state keys, allOrNothing_iff_takes entry answerKeys⟩

/-- A state with the scalar `v` in a table. -/
def room (v : Nat) : Table Nat Nat := .table 1 (.scalar 2 v .empty) .empty

/-- The scalar in the table becomes 6. -/
def change : Diff Nat Nat := .sub 1 (.flat [] (.scalar 2 6 .empty)) (.flat [] .empty)

/-- A table that the state does not have gets a scalar. -/
def misfit : Diff Nat Nat := .sub 3 (.flat [] (.scalar 4 7 .empty)) (.flat [] .empty)

/-- Both of them, as one difference. -/
def halfFit : Diff Nat Nat := .sub 1 (.flat [] (.scalar 2 6 .empty)) misfit

/-- A worker that has been sent the state at version 1, and its caches as values. -/
def reader : SharedCache Unit Nat Nat :=
  (SharedCache.empty.receive () ⟨1, some (room 5), none⟩).1

def readerCache : Cache Unit Nat Nat :=
  (WindLtask.updateState .empty () ⟨1, some (room 5), none⟩).1

theorem reader_shows : reader.Shows readerCache () := by
  have begun : (SharedCache.empty : SharedCache Unit Nat Nat).Shows .empty () := ⟨rfl, .none⟩
  have keys : (⟨1, some (room 5), none⟩ : Answer Nat Nat).Distinct :=
    fun _ absent => nomatch absent
  have takes : (Cache.empty : Cache Unit Nat Nat).Takes () ⟨1, some (room 5), none⟩ :=
    fun _ absent => nomatch absent
  exact (receive_spec begun keys).2 takes

theorem allOrNothing_of_change :
    (SharedCell.start (room 5)).AllOrNothing (room 5) change ∧
      reader.AllOrNothing readerCache () ⟨2, none, some [change]⟩ := by
  have keys : change.Distinct := ⟨trivial, trivial, fun _ enters => enters⟩
  have answerKeys : (⟨2, none, some [change]⟩ : Answer Nat Nat).Distinct := by
    rintro _ ⟨⟩ diff member
    exact List.mem_singleton.mp member ▸ keys
  have fits : change.Fits (room 5) := ⟨trivial, trivial⟩
  have whole := allOrNothing_iff (SharedCell.start_holds (room 5)) keys reader_shows answerKeys
  refine ⟨whole.1.mpr fits, whole.2.mpr ?_⟩
  rintro - - _ _ ⟨⟩ ⟨⟩
  exact ⟨fits, fun _ _ => trivial⟩

/-- A call that raises has moved the version, and has changed the table below the key 1. -/
theorem partly_applied :
    let cell := (SharedCell.start (room 5)).patch halfFit
    let replayed := reader.receive () ⟨3, none, some [change, misfit]⟩
    (SharedCell.start (room 5)).returns halfFit = false ∧ cell.version = 1 ∧
      cell.patches.length = 1 ∧ cell.heap.pack 2 cell.t = some (room 6) ∧
      ¬ (SharedCell.start (room 5)).AllOrNothing (room 5) halfFit ∧
      replayed.2 = .patchRaised ∧ replayed.1.stateVersion () = some 3 ∧
      (replayed.1.stateMap ()).bind (replayed.1.heap.pack 2) = some (room 6) ∧
      ¬ reader.AllOrNothing readerCache () ⟨3, none, some [change, misfit]⟩ := by
  have raises : (SharedCell.start (room 5)).returns halfFit = false := rfl
  have raised : (reader.receive () ⟨3, none, some [change, misfit]⟩).2 = .patchRaised := rfl
  refine ⟨raises, rfl, rfl, rfl, SharedCell.not_allOrNothing raises, raised, rfl, rfl, ?_⟩
  intro whole
  have kept : some 3 = some 1 := (whole raised).1
  exact absurd kept (by decide)

end SharedCache

end WindLtask
