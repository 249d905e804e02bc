import WindLtask.Lib.Transition
import WindLtask.Worker.Commit
import WindLtask.Worker.Release
import WindLtask.Worker.Repeats
import WindLtask.Worker.Store

/-!
# Whole transactions

A query reads its cells through the cache, its close function counts the changes,
and its `unlock` patches the cells.  The three agree on every name as long as no
table is changed whose name comes again behind it.
-/

set_option linter.unusedSectionVars false

namespace WindLtask

variable {Name Addr Wid K V : Type} [DecidableEq Name] [DecidableEq Addr] [DecidableEq Wid]
  [DecidableEq K] [DecidableEq V]

namespace Store

/-! ## The loop over the lock reply -/

variable {s s' : Store Name Addr Wid K V}

/-- The name has a cell, and what the cache has for it fits the cell. -/
def Ready (s : Store Name Addr Wid K V) (cache : Cache Name K V) (name : Name) : Prop :=
  ∃ addr cell initial, s.state name = some addr ∧ s.cells addr = some cell ∧
    cell.Grown initial ∧ Fits initial cell (cache.stateVersion name) (cache.stateMap name)

/-- The loop has read the cells of the first places. -/
structure Reading (s : Store Name Addr Wid K V) (names : List Name)
    (before cache : Cache Name K V) (q : Query Name Addr K V) : Prop where
  asked : q.names = names
  addrs : q.addrs = names.map s.state
  bound : q.oldList.length ≤ names.length
  copies : q.newList = q.oldList.map Table.clone
  ready : ∀ n ∈ names, s.Ready cache n
  read : ∀ (i : Nat) old, q.oldList[i]? = some old → ∃ n cell, names[i]? = some n ∧
    s.cellOf n = some cell ∧ cache.stateVersion n = some cell.version ∧
    cache.stateMap n = some old ∧ cell.t.Same old
  others : ∀ n ∉ names, cache.stateVersion n = before.stateVersion n ∧
    cache.stateMap n = before.stateMap n

namespace Reading

variable {names : List Name} {before cache : Cache Name K V} {q : Query Name Addr K V}

/-- The answer for the next place brings the cache to the cell's value. -/
theorem receive (reading : s.Reading names before cache q)
    (more : q.oldList.length < names.length) :
    ∃ name addr cell old, q.awaits = some (name, addr) ∧ s.cells addr = some cell ∧
      updateState cache name (cell.query (cache.stateVersion name)) =
        (cache.store name cell.version old, some old) ∧
      s.Reading names before (cache.store name cell.version old) { q with
        oldList := q.oldList ++ [old]
        newList := q.newList ++ [old.clone] } := by
  obtain ⟨name, atName⟩ : ∃ name, names[q.oldList.length]? = some name :=
    ⟨_, List.getElem?_eq_getElem more⟩
  have inNames : name ∈ names := List.mem_of_getElem? atName
  obtain ⟨addr, cell, initial, state, present, grown, fits⟩ := reading.ready name inNames
  obtain ⟨old, updated, same⟩ := updateState_of_fits grown cache name fits
  have cellOf : s.cellOf name = some cell := by simp [Store.cellOf, state, present]
  refine ⟨name, addr, cell, old, ?_, present, updated, ?_⟩
  · simp [Query.awaits, reading.asked, reading.addrs, atName, state]
  · refine ⟨reading.asked, reading.addrs, ?_, ?_, fun n member => ?_, fun i other atOld => ?_,
      fun n absent => ?_⟩
    · simpa [Nat.succ_le_iff] using more
    · simp [reading.copies]
    · by_cases here : n = name
      · subst here
        refine ⟨addr, cell, initial, state, present, grown, ?_⟩
        simpa [Cache.store] using Fits.of_current grown same
      · simpa [Ready, Cache.store, here] using reading.ready n member
    · rw [List.getElem?_append] at atOld
      split at atOld
      · obtain ⟨n, cell', atI, cellOf', version, map, same'⟩ := reading.read i other atOld
        refine ⟨n, cell', atI, cellOf', ?_⟩
        by_cases here : n = name
        · -- the same name again: its cached table is what comes back
          subst here
          obtain rfl : cell = cell' := by simpa [cellOf] using cellOf'
          have again : updateState cache n (cell.query (cache.stateVersion n)) =
              (cache, cache.stateMap n) := if_pos (by rw [Cell.query_version, version])
          rw [updated, map] at again
          obtain rfl : old = other := Option.some.inj (congrArg Prod.snd again)
          exact ⟨by simp [Cache.store], by simp [Cache.store], same'⟩
        · exact ⟨by simpa [Cache.store, here] using version,
            by simpa [Cache.store, here] using map, same'⟩
      · next beyond =>
        have here : i = q.oldList.length ∧ other = old := by
          cases shift : i - q.oldList.length with
          | zero =>
              rw [shift] at atOld
              exact ⟨by omega, by simpa using atOld.symm⟩
          | succ k => simp [shift] at atOld
        obtain ⟨rfl, rfl⟩ := here
        exact ⟨name, cell, atName, cellOf, by simp [Cache.store], by simp [Cache.store], same⟩
    · have apart : n ≠ name := fun same => absent (same ▸ inNames)
      simpa [Cache.store, apart] using reading.others n absent

/-- The loop reads the cells of all places. -/
theorem fetch (reading : s.Reading names before cache q) {fuel : Nat}
    (enough : q.oldList.length + fuel = names.length) :
    ∃ cache' q', fetch s.cells fuel cache q = some (cache', q') ∧
      s.Reading names before cache' q' ∧ q'.oldList.length = names.length := by
  induction fuel generalizing cache q with
  | zero => exact ⟨cache, q, rfl, reading, enough⟩
  | succ fuel ih =>
      obtain ⟨name, addr, cell, old, awaits, present, updated, next⟩ :=
        reading.receive (by omega)
      obtain ⟨cache', q', fetched, rest⟩ := ih next (by simp; omega)
      refine ⟨cache', q', ?_, rest⟩
      simp only [Store.fetch, awaits, present, Option.bind_some, Query.receive, updated,
        Option.map_some]
      exact fetched

end Reading

/-- A query whose names all have cells that fit the cache reads them all. -/
theorem reading_of_query {wid : Wid} {names : List Name}
    (ready : ∀ n ∈ names, s.Ready (s.caches wid) n) :
    ∃ cache q, s.query wid names = some (cache, q) ∧
      s.Reading names (s.caches wid) cache q ∧ q.oldList.length = names.length := by
  have start : s.Reading names (s.caches wid) (s.caches wid)
      (.start names (names.map s.state) names.length) :=
    ⟨rfl, rfl, Nat.zero_le _, rfl, ready, by simp [Query.start], fun _ _ => ⟨rfl, rfl⟩⟩
  exact start.fetch (by simp [Query.start])

/-! ## The loop of `S.unlock` -/

/-- The names of the manager have cells of their own. -/
def Apart (state : Name → Option Addr) : Prop :=
  ∀ n m addr, state n = some addr → state m = some addr → n = m

/-- A cell after the `patch` call of an entry, if there is one. -/
def patched (cell : Cell K V) : Option (Diff K V) → Cell K V
  | none => cell
  | some diff => (cell.patch diff).1

/-- When all cells take their patches, each is patched once and no other cell changes. -/
theorem unlock_spec {state : Name → Option Addr} (apart : Apart state)
    {entries : List (Name × Option (Diff K V))} (distinct : (entries.map Prod.fst).Nodup)
    (cells : Addr → Option (Cell K V))
    (taken : ∀ name change, (name, change) ∈ entries → ∃ addr cell,
      state name = some addr ∧ cells addr = some cell ∧
      ∀ diff, change = some diff → (cell.patch diff).2 = true) :
    ∃ cells', unlock state entries cells = some cells' ∧
      (∀ name change addr cell, (name, change) ∈ entries → state name = some addr →
        cells addr = some cell → cells' addr = some (patched cell change)) ∧
      ∀ addr, (∀ name ∈ entries.map Prod.fst, state name ≠ some addr) →
        cells' addr = cells addr := by
  induction entries generalizing cells with
  | nil => exact ⟨cells, rfl, by simp, fun _ _ => rfl⟩
  | cons entry rest ih =>
      obtain ⟨name, change⟩ := entry
      obtain ⟨fresh, distinct⟩ := List.nodup_cons.mp distinct
      obtain ⟨addr, cell, atName, present, accepts⟩ := taken name change List.mem_cons_self
      -- the cells after this entry: those of the names after it are untouched
      let cells₁ := Function.update cells addr (some (patched cell change))
      have others : ∀ n ∈ rest.map Prod.fst, ∀ a, state n = some a → cells₁ a = cells a := by
        intro n member a atN
        refine Function.update_of_ne ?_ _ _
        rintro rfl
        exact fresh (apart n name a atN atName ▸ member)
      obtain ⟨cells', done, patches, untouched⟩ := ih distinct cells₁ (by
        intro n other member
        obtain ⟨a, c, atN, there, ok⟩ := taken n other (List.mem_cons_of_mem _ member)
        exact ⟨a, c, atN, (others n (List.mem_map_of_mem member) a atN).trans there, ok⟩)
      refine ⟨cells', ?_, ?_, ?_⟩
      · cases change with
        | none =>
            have still : cells₁ = cells := by
              rw [← Function.update_eq_self addr cells, present]
              rfl
            rw [unlock, ← still]
            exact done
        | some diff =>
            simp only [unlock, atName, present, Option.bind_some, accepts diff rfl, if_true]
            exact done
      · intro n other a c member atN there
        rcases List.mem_cons.mp member with same | later
        · cases same
          obtain rfl : a = addr := by simpa [atName] using atN.symm
          obtain rfl : c = cell := by simpa [present] using there.symm
          rw [untouched a fun m member atM => fresh (apart m name a atM atName ▸ member)]
          exact Function.update_self ..
        · have key := List.mem_map_of_mem (f := Prod.fst) later
          exact patches n other a c later atN ((others n key a atN).trans there)
      · intro a apart'
        have before : cells₁ a = cells a := by
          refine Function.update_of_ne ?_ _ _
          rintro rfl
          exact apart' name (by simp) atName
        rw [untouched a fun m member => apart' m (by simp [member]), before]

/-! ## One query -/

/-- What the close function makes of a name whose last place is `k`. -/
structure Place (s : Store Name Addr Wid K V) (names : List Name) (tables : List (Table K V))
    (q : Query Name Addr K V) (cache : Cache Name K V)
    (patchMap : List (Name × Option (Diff K V))) (n : Name) (k : Nat) (addr : Addr)
    (cell : Cell K V) (old left : Table K V) (earlier : Nat) : Prop where
  atName : names[k]? = some n
  atLeft : tables[k]? = some left
  last : ∀ j, k < j → names[j]? ≠ some n
  state : s.state n = some addr
  present : s.cells addr = some cell
  same : cell.t.Same old
  returned : ∀ (i : Nat) table, names[i]? = some n → q.newList[i]? = some table → table.Same old
  entry : (n, ltdiff old left) ∈ patchMap
  version : cache.stateVersion n =
    some (cell.version + (earlier + if (ltdiff old left).isSome then 1 else 0))
  changed : (ltdiff old left).isSome → cache.stateMap n = some left
  unchanged : earlier = 0 → ltdiff old left = none → cache.stateMap n = some old
  /-- `earlier` counts the changed tables at the places before -/
  alone : earlier = 0 ↔ ∀ i < k, ∀ other, names[i]? = some n → tables[i]? = some other →
    old.Same other

/-- The close function on the tables that the handler has left. -/
theorem place_of_close {wid : Wid} {names : List Name} {tables : List (Table K V)}
    (left : tables.length = names.length) {read cache : Cache Name K V}
    {q : Query Name Addr K V} (reading : s.Reading names (s.caches wid) read q)
    (whole : q.oldList.length = names.length) {patchMap : List (Name × Option (Diff K V))}
    (closed : Query.close { q with newList := tables } read = (cache, some patchMap)) :
    (patchMap.map Prod.fst).Nodup ∧ (∀ n, n ∈ patchMap.map Prod.fst ↔ n ∈ names) ∧
      ∀ n change, (n, change) ∈ patchMap → ∃ k addr cell old left earlier,
        Place s names tables q cache patchMap n k addr cell old left earlier ∧
          change = ltdiff old left := by
  rw [Query.close] at closed
  simp only [reading.asked] at closed
  obtain ⟨map, done, distinct, keys, entries⟩ :=
    Query.closeLoop_entries names q.oldList tables read whole left
  obtain rfl : map = patchMap := Option.some.inj (done.symm.trans (congrArg Prod.snd closed))
  obtain rfl : (Query.closeLoop read names q.oldList tables).1 = cache := congrArg Prod.fst closed
  refine ⟨distinct, keys, fun n change member => ?_⟩
  obtain ⟨k, old, new, atName, atOld, atNew, last, rfl⟩ := (entries (n, change)).mp member
  obtain ⟨m, cell, atM, cellOf, version, map', same⟩ := reading.read k old atOld
  obtain rfl : m = n := Option.some.inj (atM.symm.trans atName)
  obtain ⟨addr, state, present⟩ := Option.bind_eq_some_iff.mp cellOf
  obtain ⟨earlier, count, before⟩ := Query.changesOf_last atName atOld atNew last
  -- all places of the name got the table that the cache has
  have shared : ∀ (i : Nat) first, names[i]? = some m → q.oldList[i]? = some first →
      first = old := by
    intro i first atI atFirst
    obtain ⟨m', _, atM', _, _, mapI, _⟩ := reading.read i first atFirst
    obtain rfl : m' = m := Option.some.inj (atM'.symm.trans atI)
    exact Option.some.inj (mapI.symm.trans map')
  refine ⟨k, addr, cell, old, new, earlier, ?_, rfl⟩
  refine ⟨atName, atNew, last, state, present, same, ?_, member, ?_, ?_, ?_, ?_⟩
  · intro i table atI atTable
    rw [reading.copies, List.getElem?_map, Option.map_eq_some_iff] at atTable
    obtain ⟨first, atFirst, rfl⟩ := atTable
    rw [shared i first atI atFirst]
    exact old.denote_clone
  · rw [Query.closeLoop_version, version, count]
    rfl
  · exact Query.closeLoop_map read atName atOld atNew last
  · intro none_before no_change
    rw [Query.closeLoop_map_of_none, map']
    rw [count, none_before, no_change]
    rfl
  · rw [before]
    constructor
    · intro none_ i less other atI atOther
      obtain ⟨first, atFirst⟩ : ∃ first, q.oldList[i]? = some first := by
        have bound := (List.getElem?_eq_some_iff.mp atI).1
        exact ⟨_, List.getElem?_eq_getElem (by omega)⟩
      have diff := none_ i less first other atI atFirst atOther
      rw [← shared i first atI atFirst]
      exact (ltdiff_eq_none_iff first other).mp diff
    · intro unchanged i less first other atI atFirst atOther
      rw [shared i first atI atFirst]
      exact (ltdiff_eq_none_iff old other).mpr (unchanged i less other atI atOther)

theorem patched_version (cell : Cell K V) (change : Option (Diff K V)) :
    (patched cell change).version = cell.version + if change.isSome then 1 else 0 := by
  cases change with
  | none => rfl
  | some diff =>
      simp only [patched, Cell.patch]
      split <;> rfl

theorem patched_same {cell : Cell K V} {old : Table K V} (same : cell.t.Same old)
    (left : Table K V) :
    (patched cell (ltdiff old left)).t.Same left := by
  cases change : ltdiff old left with
  | none => exact same.trans ((ltdiff_eq_none_iff old left).mp change)
  | some diff => exact (Cell.patch_ltdiff change cell same).2

/-- Without changes before the last place the cache has what the cell then holds. -/
theorem Place.current {names : List Name} {tables : List (Table K V)}
    {q : Query Name Addr K V} {cache : Cache Name K V}
    {patchMap : List (Name × Option (Diff K V))} {n : Name} {k : Nat} {addr : Addr}
    {cell : Cell K V} {old left : Table K V}
    (place : Place s names tables q cache patchMap n k addr cell old left 0) :
    cache.stateVersion n = some (patched cell (ltdiff old left)).version ∧
      ∃ map, cache.stateMap n = some map ∧ map.Same (patched cell (ltdiff old left)).t := by
  have same := patched_same place.same left
  constructor
  · rw [place.version, patched_version, Nat.zero_add]
  · cases change : ltdiff old left with
    | none =>
        rw [change] at same
        exact ⟨old, place.unchanged rfl change, place.same.symm⟩
    | some diff =>
        rw [change] at same
        exact ⟨left, place.changed (by simp [change]), same.symm⟩

/-- A cell takes the difference of a table that it holds. -/
theorem patched_grown {cell : Cell K V} {initial old : Table K V} (grown : cell.Grown initial)
    (same : cell.t.Same old) (left : Table K V) :
    (patched cell (ltdiff old left)).Grown initial ∧
      ∃ more, (patched cell (ltdiff old left)).patches = cell.patches ++ more := by
  cases change : ltdiff old left with
  | none => exact ⟨grown, [], (List.append_nil _).symm⟩
  | some diff =>
      obtain ⟨t, taken, -⟩ := tablePatch_ltdiff change same
      obtain ⟨grown', patches⟩ := grown.patch taken
      exact ⟨grown', [diff], patches⟩

/-! ## The invariant -/

/-- A cached version and table that the cell has had. -/
def Behind (initial : Table K V) (cell : Cell K V) (v : Nat) (map : Table K V) : Prop :=
  ∃ value, v ≤ cell.version ∧ replay initial (cell.patches.take v) = some value ∧ value.Same map

/-- What the cell has had it still has had when it has grown. -/
theorem Behind.grow {initial map : Table K V} {cell cell' : Cell K V} {v : Nat}
    (behind : Behind initial cell v map) (grown : cell.Grown initial)
    (grown' : cell'.Grown initial) {more : List (Diff K V)}
    (patches : cell'.patches = cell.patches ++ more) : Behind initial cell' v map := by
  obtain ⟨value, bound, reached, same⟩ := behind
  have inside : v ≤ cell.patches.length := grown.version ▸ bound
  refine ⟨value, ?_, ?_, same⟩
  · rw [grown'.version, patches, List.length_append]
    omega
  · rwa [patches, List.take_append_of_le_length inside]

/-- A name has a cell that has grown from the table it began with; what came from it fits it. -/
structure Sound (s : Store Name Addr Wid K V) : Prop where
  stated : ∀ n addr, s.state n = some addr → ∃ cell initial, s.cells addr = some cell ∧
    s.born addr = some (n, initial) ∧ cell.Grown initial
  sourced : ∀ wid n addr, s.source wid n = some addr → (s.born addr).isSome
  cached : ∀ wid n v addr cell initial, (s.caches wid).stateVersion n = some v →
    s.source wid n = some addr → s.state n = some addr → s.cells addr = some cell →
    s.born addr = some (n, initial) →
    ∃ map, (s.caches wid).stateMap n = some map ∧ Behind initial cell v map

namespace Sound

theorem init : Sound (init : Store Name Addr Wid K V) where
  stated := by simp [Store.init]
  sourced := by simp [Store.init]
  cached := by simp [Store.init]

theorem apart (sound : Sound s) : Apart s.state := by
  intro n m addr left right
  obtain ⟨_, _, -, bornLeft, -⟩ := sound.stated n addr left
  obtain ⟨_, _, -, bornRight, -⟩ := sound.stated m addr right
  rw [bornLeft] at bornRight
  exact congrArg Prod.fst (Option.some.inj bornRight)

/-- A known version fits its cell. -/
theorem ready (sound : Sound s) {wid : Wid} {names : List Name} {tables : List (Table K V)}
    (known : s.Known (.query wid names tables)) (existing : ∀ n ∈ names, (s.state n).isSome) :
    ∀ n ∈ names, s.Ready (s.caches wid) n := by
  intro n member
  obtain ⟨addr, state⟩ := Option.isSome_iff_exists.mp (existing n member)
  obtain ⟨cell, initial, present, born, grown⟩ := sound.stated n addr state
  refine ⟨addr, cell, initial, state, present, grown, ?_⟩
  cases version : (s.caches wid).stateVersion n with
  | none => exact .absent _
  | some v =>
      rcases known n member cell v (by simp [cellOf, state, present]) version with
        source | ahead | ⟨rfl, moved⟩
      · rw [state] at source
        obtain ⟨map, atMap, value, bound, reached, same⟩ :=
          sound.cached wid n v addr cell initial version source state present born
        rw [atMap]
        exact .earlier v map value bound reached same
      · exact .ahead v _ ahead
      · exact .zero _ moved

end Sound

/-- What a query does to the cells, name by name. -/
theorem outcome (sound : Sound s) {wid : Wid} {names : List Name} {tables : List (Table K V)}
    (known : s.Known (.query wid names tables)) (existing : ∀ n ∈ names, (s.state n).isSome)
    (left : tables.length = names.length) :
    ∃ read q cache patchMap, s.query wid names = some (read, q) ∧
      s.Reading names (s.caches wid) read q ∧ q.oldList.length = names.length ∧
      Query.close { q with newList := tables } read = (cache, some patchMap) ∧
      ∀ entries, entries.Perm patchMap → ∃ cells, unlock s.state entries s.cells = some cells ∧
        (∀ n ∈ names, ∃ k addr cell old left earlier,
          Place s names tables q cache patchMap n k addr cell old left earlier ∧
          cells addr = some (patched cell (ltdiff old left))) ∧
        ∀ n addr, n ∉ names → s.state n = some addr → cells addr = s.cells addr := by
  obtain ⟨read, q, fetched, reading, whole⟩ :=
    reading_of_query (sound.ready known existing)
  obtain ⟨patchMap, done, -⟩ := Query.closeLoop_entries names q.oldList tables read whole left
  have closed : Query.close { q with newList := tables } read =
      ((Query.closeLoop read names q.oldList tables).1, some patchMap) := by
    rw [Query.close, ← done]
    simp only [reading.asked]
  obtain ⟨distinct, keys, places⟩ := place_of_close left reading whole closed
  refine ⟨read, q, _, patchMap, fetched, reading, whole, closed, fun entries order => ?_⟩
  have sameKeys := order.map Prod.fst
  obtain ⟨cells, unlocked, patches, untouched⟩ := unlock_spec sound.apart
    (sameKeys.nodup_iff.mpr distinct) s.cells (by
      intro n change member
      obtain ⟨k, addr, cell, old, new, earlier, place, rfl⟩ :=
        places n change (order.mem_iff.mp member)
      exact ⟨addr, cell, place.state, place.present, fun diff found =>
        (Cell.patch_ltdiff found cell place.same).1⟩)
  refine ⟨cells, unlocked, fun n member => ?_, fun n addr absent state => ?_⟩
  · obtain ⟨⟨m, change⟩, inMap, rfl⟩ := List.mem_map.mp ((keys n).mpr member)
    obtain ⟨k, addr, cell, old, new, earlier, place, rfl⟩ := places m change inMap
    exact ⟨k, addr, cell, old, new, earlier, place,
      patches m _ addr cell (order.mem_iff.mpr inMap) place.state place.present⟩
  · refine untouched addr fun m member atM => absent ?_
    rw [sound.apart n m addr state atM]
    exact (keys m).mp (sameKeys.mem_iff.mp member)

/-- The handler has changed no table of the name before its last one. -/
theorem Place.alone_iff {names : List Name} {tables : List (Table K V)}
    {q : Query Name Addr K V} {cache : Cache Name K V}
    {patchMap : List (Name × Option (Diff K V))} {n : Name} {k : Nat} {addr : Addr}
    {cell : Cell K V} {old left : Table K V} {earlier : Nat}
    (place : Place s names tables q cache patchMap n k addr cell old left earlier) :
    earlier = 0 ↔ ∀ (i j : Nat) other, i < j → names[i]? = some n → names[j]? = some n →
      tables[i]? = some other → cell.t.Same other := by
  rw [place.alone]
  constructor
  · intro unchanged i j other less atI atJ atOther
    have before : j ≤ k := Nat.le_of_not_lt fun behind => place.last j behind atJ
    exact place.same.trans (unchanged i (Nat.lt_of_lt_of_le less before) other atI atOther)
  · intro unchanged i less other atI atOther
    exact place.same.symm.trans (unchanged i k other less atI place.atName atOther)

namespace Sound

/-- A new cell has an address that nobody has had before. -/
theorem created {conf : Persistence Name K V} (sound : Sound s) {name : Name} {t : Table K V}
    {addr : Addr} {cell : Cell K V} (fresh : s.born addr = none)
    (started : Cell.start conf name t = some cell) :
    Sound { s with
      state := Function.update s.state name (some addr)
      cells := Function.update s.cells addr (some cell)
      born := Function.update s.born addr (some (name, cell.t)) } where
  stated n a state := by
    by_cases here : n = name
    · subst here
      obtain rfl : addr = a := by simpa using state
      exact ⟨cell, cell.t, by simp, by simp, (Cell.Grown.start started).1⟩
    · have state : s.state n = some a := by simpa [here] using state
      obtain ⟨cell', initial, present, born, grown⟩ := sound.stated n a state
      have other : a ≠ addr := by
        rintro rfl
        rw [fresh] at born
        cases born
      exact ⟨cell', initial, by simp [other, present], by simp [other, born], grown⟩
  sourced wid n a source := by
    by_cases same : a = addr
    · subst same
      simp
    · simpa [same] using sound.sourced wid n a source
  cached wid n v a cell' initial version source state present born := by
    have other : a ≠ addr := by
      rintro rfl
      have old := sound.sourced wid n a source
      rw [fresh] at old
      cases old
    by_cases here : n = name
    · subst here
      exact absurd (by simpa using state.symm) other
    · exact sound.cached wid n v a cell' initial version source (by simpa [here] using state)
        (by simpa [other] using present) (by simpa [other] using born)

/-- A released cell is nobody's any more. -/
theorem released (sound : Sound s) {name : Name} {addr : Addr}
    (gone : s.state name = some addr) :
    Sound { s with
      state := Function.update s.state name none
      cells := Function.update s.cells addr none } := by
  have others : ∀ n a, Function.update s.state name none n = some a →
      s.state n = some a ∧ a ≠ addr := by
    intro n a state
    by_cases here : n = name
    · subst here
      simp at state
    · have state : s.state n = some a := by simpa [here] using state
      exact ⟨state, fun same => here (sound.apart n name a state (same ▸ gone))⟩
  constructor
  · intro n a state
    obtain ⟨state, other⟩ := others n a state
    obtain ⟨cell, initial, present, born, grown⟩ := sound.stated n a state
    exact ⟨cell, initial, by simp [other, present], born, grown⟩
  · exact sound.sourced
  · intro wid n v a cell initial version source state present born
    obtain ⟨state, other⟩ := others n a state
    exact sound.cached wid n v a cell initial version source state
      (by simpa [other] using present) born

/-- The cells of the store have the values `cells`, which some more patches have made. -/
def GrowsTo (s : Store Name Addr Wid K V) (cells : Addr → Option (Cell K V)) : Prop :=
  ∀ n addr cell initial, s.state n = some addr → s.cells addr = some cell → cell.Grown initial →
    ∃ cell' more, cells addr = some cell' ∧ cell'.Grown initial ∧
      cell'.patches = cell.patches ++ more

/-- Each cell grows by what the query has patched. -/
theorem growsTo {names : List Name} {tables : List (Table K V)} {cache : Cache Name K V}
    {q : Query Name Addr K V} {patchMap : List (Name × Option (Diff K V))}
    {cells : Addr → Option (Cell K V)}
    (places : ∀ n ∈ names, ∃ k addr cell old left,
      Place s names tables q cache patchMap n k addr cell old left 0 ∧
      cells addr = some (patched cell (ltdiff old left)))
    (untouched : ∀ n addr, n ∉ names → s.state n = some addr → cells addr = s.cells addr) :
    GrowsTo s cells := by
  intro n addr cell initial state present grown
  by_cases member : n ∈ names
  · obtain ⟨k, addr', cell', old, left, place, after⟩ := places n member
    obtain rfl : addr = addr' := Option.some.inj (state.symm.trans place.state)
    obtain rfl : cell = cell' := Option.some.inj (present.symm.trans place.present)
    obtain ⟨grown', more, patches⟩ := patched_grown grown place.same left
    exact ⟨_, more, after, grown', patches⟩
  · exact ⟨cell, [], (untouched n addr member state).trans present, grown,
      (List.append_nil _).symm⟩

/-- A cached table is one that the cell had, also after the cell has grown. -/
theorem cached_of_growsTo (sound : Sound s) {cells : Addr → Option (Cell K V)}
    (grows : GrowsTo s cells) {wid : Wid} {n : Name} {v : Nat} {addr : Addr} {cell' : Cell K V}
    {initial : Table K V} (version : (s.caches wid).stateVersion n = some v)
    (source : s.source wid n = some addr) (state : s.state n = some addr)
    (after : cells addr = some cell') (born : s.born addr = some (n, initial)) :
    ∃ map, (s.caches wid).stateMap n = some map ∧ Behind initial cell' v map := by
  obtain ⟨cell, initial', present, born', grown⟩ := sound.stated n addr state
  obtain rfl : initial' = initial :=
    congrArg Prod.snd (Option.some.inj (born'.symm.trans born))
  obtain ⟨map, atMap, behind⟩ :=
    sound.cached wid n v addr cell initial' version source state present born
  obtain ⟨cell'', more, after', grown', patches⟩ := grows n addr cell initial' state present grown
  obtain rfl : cell'' = cell' := Option.some.inj (after'.symm.trans after)
  exact ⟨map, atMap, behind.grow grown grown' patches⟩

/-- A query that changes last tables only leaves every cached table one that its cell had. -/
theorem queried (sound : Sound s) {wid : Wid} {names : List Name} {tables : List (Table K V)}
    {read cache : Cache Name K V} {q : Query Name Addr K V}
    {patchMap : List (Name × Option (Diff K V))} {cells : Addr → Option (Cell K V)}
    (reading : s.Reading names (s.caches wid) read q)
    (closed : Query.close { q with newList := tables } read = (cache, some patchMap))
    (places : ∀ n ∈ names, ∃ k addr cell old left,
      Place s names tables q cache patchMap n k addr cell old left 0 ∧
      cells addr = some (patched cell (ltdiff old left)))
    (untouched : ∀ n addr, n ∉ names → s.state n = some addr → cells addr = s.cells addr) :
    Sound { s with
      cells := cells
      caches := Function.update s.caches wid cache
      source := Function.update s.source wid fun name =>
        if name ∈ names then s.state name else s.source wid name } := by
  have grows := growsTo places untouched
  constructor
  · intro n addr state
    obtain ⟨cell, initial, present, born, grown⟩ := sound.stated n addr state
    obtain ⟨cell', more, after, grown', -⟩ := grows n addr cell initial state present grown
    exact ⟨cell', initial, after, born, grown'⟩
  · intro wid' n addr source
    by_cases own : wid' = wid
    · subst own
      simp only [Function.update_self] at source
      split at source
      · obtain ⟨cell, initial, -, born, -⟩ := sound.stated n addr source
        simp [born]
      · exact sound.sourced wid' n addr source
    · exact sound.sourced wid' n addr (by simpa [own] using source)
  · intro wid' n v addr cell' initial version source state after born
    by_cases own : wid' = wid
    · subst own
      simp only [Function.update_self] at version source ⊢
      by_cases member : n ∈ names
      · obtain ⟨k, addr', cell, old, left, place, after'⟩ := places n member
        obtain rfl : addr = addr' := Option.some.inj (state.symm.trans place.state)
        obtain rfl : patched cell (ltdiff old left) = cell' :=
          Option.some.inj (after'.symm.trans after)
        obtain ⟨cell₀, initial', present, born', grown⟩ := sound.stated n addr state
        obtain rfl : cell₀ = cell := Option.some.inj (present.symm.trans place.present)
        obtain rfl : initial' = initial :=
          congrArg Prod.snd (Option.some.inj (born'.symm.trans born))
        obtain ⟨grown', -, -⟩ := patched_grown grown place.same left
        obtain ⟨current, map, atMap, same⟩ := place.current
        obtain rfl : v = (patched cell₀ (ltdiff old left)).version :=
          Option.some.inj (version.symm.trans current)
        refine ⟨map, atMap, _, Nat.le_refl _, ?_, same.symm⟩
        rw [List.take_of_length_le (Nat.le_of_eq grown'.version.symm)]
        exact grown'.value
      · have apart := Query.closeLoop_of_notMem read q.oldList tables
          (fun inside => member (List.mem_of_mem_take inside) : n ∉ names.take q.oldList.length)
        have close : cache = (Query.closeLoop read names q.oldList tables).1 := by
          have first := congrArg Prod.fst closed
          simp only [Query.close, reading.asked] at first
          exact first.symm
        rw [close, apart.1, (reading.others n member).1] at version
        rw [if_neg member] at source
        rw [close, apart.2, (reading.others n member).2]
        exact sound.cached_of_growsTo grows version source state after born
    · simp only [Function.update_of_ne own] at version source ⊢
      exact sound.cached_of_growsTo grows version source state after born

theorem step {conf : Persistence Name K V} (sound : Sound s)
    {request : Request Name Addr Wid K V} (known : s.Known request)
    (onlyLast : s.OnlyLast request) (step : Step conf s request s') : Sound s' := by
  cases step with
  | newstate name t addr cell absent fresh started => exact sound.created fresh started
  | released name addr present => exact sound.released present
  | missing name absent => exact sound
  | query wid names tables named existing left read q fetched cache patchMap entries closed order
      cells unlocked =>
      obtain ⟨read', q', cache', patchMap', fetched', reading, -, closed', ends⟩ :=
        outcome sound known existing left
      obtain ⟨rfl, rfl⟩ := Prod.mk.inj (Option.some.inj (fetched.symm.trans fetched'))
      obtain ⟨rfl, same⟩ := Prod.mk.inj (closed.symm.trans closed')
      obtain rfl := Option.some.inj same
      obtain ⟨cells', unlocked', places, untouched⟩ := ends entries order
      obtain rfl := Option.some.inj (unlocked.symm.trans unlocked')
      refine sound.queried reading closed (fun n member => ?_) untouched
      obtain ⟨k, addr, cell, old, new, earlier, place, after⟩ := places n member
      obtain rfl : earlier = 0 := place.alone_iff.mpr fun i j other less atI atJ atOther =>
        onlyLast i j n cell other less atI atJ
          (by simp [Store.cellOf, place.state, place.present]) atOther
      exact ⟨k, addr, cell, old, new, place, after⟩

/-- A query comes to its end, whatever its handler does. -/
theorem runs (conf : Persistence Name K V) (sound : Sound s) {wid : Wid} {names : List Name}
    {tables : List (Table K V)} (known : s.Known (.query wid names tables)) (named : names ≠ [])
    (existing : ∀ n ∈ names, (s.state n).isSome) (left : tables.length = names.length) :
    ∃ s', Step conf s (.query wid names tables) s' := by
  obtain ⟨read, q, cache, patchMap, fetched, -, -, closed, ends⟩ :=
    outcome sound known existing left
  obtain ⟨cells, unlocked, -⟩ := ends patchMap (.refl _)
  exact ⟨_, .query wid names tables named existing left read q fetched cache patchMap patchMap
    closed (.refl _) cells unlocked⟩

end Sound

/-- No write of the request is lost, however it ends. -/
def Keeps (conf : Persistence Name K V) (s : Store Name Addr Wid K V)
    (request : Request Name Addr Wid K V) : Prop :=
  ∀ s', Step conf s request s' → s.Kept s' request

end Store

end WindLtask