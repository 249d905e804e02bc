import WindLtask.System.QuerySteps

/-!
# The end of a query

When a query closes, its changes join the history of the cells, although the
cells have yet to receive them; the function that `__close` forks then moves the
worker's caches on and sends what the cells lack.
-/

set_option linter.unusedSectionVars false

namespace WindLtask.System

open Manager World Process

variable {Name Addr Rid Wid K V : Type} [DecidableEq Name] [DecidableEq Addr] [DecidableEq Rid]
  [DecidableEq Wid] [DecidableEq K] [DecidableEq V]

/-- The changes to one cell among the entries of one closed query. -/
def changesOf (entries : List (Entry Name Addr K V)) (addr : Addr) : List (Diff K V) :=
  entries.filterMap fun entry => if entry.addr = addr then entry.change else none

theorem changesIn_snoc (closed : List (Closed Name Addr Rid K V))
    (last : Closed Name Addr Rid K V) (addr : Addr) :
    changesIn (closed ++ [last]) addr = changesIn closed addr ++ changesOf last.entries addr := by
  simp [changesIn, changesOf]

theorem changesOf_of_absent {entries : List (Entry Name Addr K V)} {addr : Addr}
    (absent : ∀ entry ∈ entries, entry.addr ≠ addr) : changesOf entries addr = [] := by
  refine List.filterMap_eq_nil_iff.mpr fun entry member => ?_
  rw [if_neg (absent entry member)]

/-- A list in which one entry alone has a value for `f`. -/
theorem filterMap_eq_toList {α β : Type} {f : α → Option β} {l : List α} {i : Nat} {x : α}
    (here : l[i]? = some x) (only : ∀ j y, l[j]? = some y → j ≠ i → f y = none) :
    l.filterMap f = (f x).toList := by
  induction l generalizing i with
  | nil => simp at here
  | cons first rest ih =>
      cases i with
      | zero =>
          obtain rfl : first = x := by simpa using here
          have none_later : rest.filterMap f = [] := by
            refine List.filterMap_eq_nil_iff.mpr fun y member => ?_
            obtain ⟨j, at'⟩ := List.mem_iff_getElem?.mp member
            exact only (j + 1) y (by simpa using at') (by omega)
          cases value : f first <;> simp [value, none_later]
      | succ i =>
          have none_here : f first = none := only 0 first (by simp) (by omega)
          rw [List.filterMap_cons_none none_here]
          exact ih (by simpa using here) fun j y at' apart =>
            only (j + 1) y (by simpa using at') (by omega)

namespace Net

variable {conf : Persistence Name K V} {s s' : Net Name Addr Rid Wid K V}

/-! ## The entries of a closed query -/

theorem mem_entries {q : Query Name Addr K V} {tables : List (Table K V)}
    {entry : Entry Name Addr K V} (member : entry ∈ entries q tables) :
    ∃ (i : Nat) (old : Table K V), q.names[i]? = some entry.name ∧
      q.addrs[i]? = some (some entry.addr) ∧ q.newList[i]? = some entry.returned ∧
      q.oldList[i]? = some old ∧ tables[i]? = some entry.left := by
  obtain ⟨⟨⟨name, slot⟩, returned, old, left⟩, inZip, shape⟩ := List.mem_filterMap.mp member
  obtain ⟨addr, rfl, rfl⟩ := Option.map_eq_some_iff.mp shape
  obtain ⟨i, at'⟩ := List.mem_iff_getElem?.mp inZip
  simp only [List.getElem?_zip_eq_some] at at'
  obtain ⟨⟨atName, atAddr⟩, atReturned, atOld, atLeft⟩ := at'
  exact ⟨i, old, atName, atAddr, atReturned, atOld, atLeft⟩

/-- The one change of a closed query to the cell at index `i`. -/
theorem changesOf_entries {q : Query Name Addr K V} {tables : List (Table K V)} {i : Nat}
    {name : Name} {addr : Addr} {old new returned : Table K V} (atName : q.names[i]? = some name)
    (atAddr : q.addrs[i]? = some (some addr)) (atOld : q.oldList[i]? = some old)
    (atNew : tables[i]? = some new) (atReturned : q.newList[i]? = some returned)
    (only : ∀ j n, q.names[j]? = some n → q.addrs[j]? = some (some addr) → j = i) :
    changesOf (entries q tables) addr = (ltdiff old new).toList := by
  unfold changesOf entries
  rw [List.filterMap_filterMap]
  have here : ((q.names.zip q.addrs).zip (q.newList.zip (q.oldList.zip tables)))[i]? =
      some ((name, some addr), returned, old, new) := by
    simp only [List.getElem?_zip_eq_some, atName, atAddr, atReturned, atOld, atNew, and_self]
  rw [filterMap_eq_toList here]
  · simp
  · rintro j ⟨⟨n, slot⟩, rest⟩ at' apart
    obtain ⟨left, -⟩ := List.getElem?_zip_eq_some.mp at'
    obtain ⟨atN, atSlot⟩ := List.getElem?_zip_eq_some.mp left
    cases slot with
    | none => rfl
    | some a =>
        have other : a ≠ addr := by
          rintro rfl
          exact apart (only j n atN atSlot)
        simp [other]

/-- A query got a cell at one index only, because the cell was created for one name. -/
theorem Shape.index_unique {rid : Rid} {q : Query Name Addr K V} (shape : s.Shape rid q)
    {i j : Nat} {name n : Name} {addr : Addr} (atName : q.names[i]? = some name)
    (atAddr : q.addrs[i]? = some (some addr)) (atN : q.names[j]? = some n)
    (atAddr' : q.addrs[j]? = some (some addr)) : j = i := by
  obtain ⟨initial, born⟩ := shape.born name addr ⟨i, atName, atAddr⟩
  obtain ⟨other, born'⟩ := shape.born n addr ⟨j, atN, atAddr'⟩
  rw [born] at born'
  cases born'
  have bound := (List.getElem?_eq_some_iff.mp atN).1
  exact (List.getElem?_inj bound shape.distinct).mp (atN.trans atName.symm)

/-- The change from a fetched table leads the value of its cell to the table that was left. -/
theorem replay_changed {initial value old : Table K V} {before : List (Diff K V)}
    (reached : replay initial before = some value) (same : value.Same old) (new : Table K V) :
    ∃ result, replay initial (before ++ changed old new) = some result ∧ result.Same new := by
  rw [replay_append, reached]
  unfold changed
  cases found : ltdiff old new with
  | none => exact ⟨value, rfl, same.trans ((ltdiff_eq_none_iff old new).mp found)⟩
  | some diff =>
      obtain ⟨patched, taken, samePatched⟩ := tablePatch_ltdiff found same
      exact ⟨patched, by simp [replay_cons, taken], samePatched⟩

/-- What an entry of a query that closes says of its cell before the change. -/
theorem entry_spec {rid : Rid} {q : Query Name Addr K V} {tables : List (Table K V)}
    {entry : Entry Name Addr K V} (shape : s.Shape rid q) (holds : s.Holds rid q unchanged)
    (copies : q.Copies) (member : entry ∈ entries q tables) :
    ∃ initial value old, s.born entry.addr = some (entry.name, initial) ∧
      q.At entry.name entry.addr ∧ replay initial (s.log entry.addr) = some value ∧
      value.Same old ∧ value.Same entry.returned ∧
      (∀ cell, s.cells entry.addr = some cell → cell.patches = s.log entry.addr) ∧
      changesOf (entries q tables) entry.addr = (ltdiff old entry.left).toList := by
  obtain ⟨i, old, atName, atAddr, atReturned, atOld, atNew⟩ := mem_entries member
  obtain ⟨initial, before, value, born, log, reached, same, -, -, -, cells⟩ :=
    holds i _ _ old entry.returned atName atAddr atOld atReturned
  have log : s.log entry.addr = before := by simpa [unchanged] using log
  subst log
  have changes := changesOf_entries atName atAddr atOld atNew atReturned
    fun j n => shape.index_unique atName atAddr
  exact ⟨initial, value, old, born, ⟨i, atName, atAddr⟩, reached, same,
    same.trans (copies i old _ atOld atReturned).symm, cells, changes⟩

/-- A cell that a closing query does not name gets no change from it. -/
theorem log_of_absent {entries : List (Entry Name Addr K V)} {addr : Addr} (rid : Rid)
    (absent : ∀ entry ∈ entries, entry.addr ≠ addr) :
    changesIn (s.closed ++ [⟨rid, entries⟩]) addr = s.log addr := by
  rw [changesIn_snoc, changesOf_of_absent absent, List.append_nil, log]

/-- Only a query that runs closes. -/
theorem running_of_close {rid : Rid} {tables : List (Table K V)}
    (enabled : s.Enabled conf (.close rid tables)) :
    ∃ q, s.stage rid = .running q ∧ tables.length = q.newList.length := by
  cases stage : s.stage rid with
  | running q =>
      simp only [Enabled, stage] at enabled
      exact ⟨q, rfl, enabled.2⟩
  | _ => simp [Enabled, stage] at enabled

theorem Coherent.close (coherent : Coherent s) {rid : Rid} {tables : List (Table K V)}
    (enabled : s.Enabled conf (.close rid tables)) :
    Coherent (s.next conf (.close rid tables)) := by
  obtain ⟨q, stage, length⟩ := running_of_close enabled
  obtain ⟨⟨shape, held⟩, -, holds, copies⟩ := coherent.at_running stage
  have covers := covers_of_held held
  have early : ¬ s.PastClose rid := by simp [PastClose, stage, Stage.past]
  have spec : ∀ entry ∈ entries q tables, _ := fun entry => entry_spec shape holds copies
  simp only [next, stage]
  refine ⟨coherent.sound, coherent.exclusive, coherent.addressed, ?_, coherent.calls,
    coherent.spawning, coherent.stated, coherent.granted, ?_, ?_, ?_, ?_, ?_⟩
  · intro other
    by_cases here : other = rid
    · subst here
      unfold Good
      simp only [Net.moveTo, Function.update_self]
      refine ⟨⟨⟨shape.distinct, shape.reply, length.trans shape.lengths, shape.fetched, shape.born⟩,
        held⟩, ?_⟩
      intro i name addr old new atName atAddr atOld atNew
      have bound : i < q.newList.length := by
        rw [shape.lengths]
        exact (List.getElem?_eq_some_iff.mp atOld).1
      have atReturned := List.getElem?_eq_getElem bound
      obtain ⟨initial, before, value, born, logBefore, rest⟩ :=
        holds i name addr old _ atName atAddr atOld atReturned
      refine ⟨initial, before, value, born, ?_, rest⟩
      have changes := changesOf_entries (q := q) atName atAddr atOld atNew atReturned
        fun j n => shape.index_unique atName atAddr
      show changesIn _ addr = before ++ changed old new
      rw [changesIn_snoc, changes]
      have logBefore : s.log addr = before := by simpa [unchanged] using logBefore
      rw [show changesIn s.closed addr = before from logBefore]
      rfl
    · refine Agree.good ?_ coherent.sound (coherent.good other)
      refine ⟨by simp [Net.moveTo, here], .inl rfl, rfl, rfl, fun _ member => member, rfl,
        fun _ _ => rfl, fun _ _ => rfl, fun _ _ => rfl, fun _ _ born => born, ?_,
        fun _ _ _ _ _ _ there => there⟩
      intro n a t coversN bornN
      refine log_of_absent rid fun entry member same => here ?_
      obtain ⟨initial, value, old, born, ⟨i, atName, -⟩, -⟩ := spec entry member
      rw [same] at born
      exact coherent.rid_eq bornN born coversN (covers _ (List.mem_of_getElem? atName))
  · intro addr cell there
    obtain ⟨n, t, born, grown, rest⟩ := coherent.cells addr cell there
    refine ⟨n, t, born, grown, ?_⟩
    simp only [log]
    by_cases named : ∃ entry ∈ entries q tables, entry.addr = addr
    · obtain ⟨entry, member, rfl⟩ := named
      obtain ⟨initial, value, old, bornEntry, at', -, -, -, cells, changes⟩ :=
        spec entry member
      rw [changesIn_snoc, changes, show changesIn s.closed entry.addr = cell.patches from
        (cells cell there).symm]
      cases ltdiff old entry.left with
      | none => exact .inl (by simp)
      | some diff =>
          refine .inr ⟨diff, rfl, rid, { q with newList := tables }, entry.name, ?_, ?_, ?_, at'⟩
          · simp [Net.moveTo, Stage.query]
          · simp [PastClose, Net.moveTo, Stage.past]
          · obtain ⟨i, atName, -⟩ := at'
            exact covers _ (List.mem_of_getElem? atName)
    · rw [log_of_absent rid fun entry member same => named ⟨entry, member, same⟩]
      refine rest.imp_right ?_
      rintro ⟨diff, shape, owner⟩
      exact ⟨diff, shape, owner.of_early early rfl fun other apart => by simp [Net.moveTo, apart]⟩
  · intro wid n v version
    obtain ⟨map, addr, t, value, atMap, source, born, bound, reached, same⟩ :=
      coherent.caches wid n v version
    refine ⟨map, addr, t, value, atMap, source, born, ?_, ?_, same⟩
    · simp only [log, changesIn_snoc, List.length_append]
      exact Nat.le_add_right_of_le bound
    · simp only [log, changesIn_snoc]
      rw [List.take_append_of_le_length (show v ≤ (changesIn s.closed addr).length from bound)]
      exact reached
  · intro addr n t born
    by_cases named : ∃ entry ∈ entries q tables, entry.addr = addr
    · obtain ⟨entry, member, rfl⟩ := named
      obtain ⟨initial, value, old, bornEntry, -, reached, same, -, -, changes⟩ :=
        spec entry member
      cases bornEntry.symm.trans born
      obtain ⟨result, done, -⟩ := replay_changed reached same entry.left
      refine ⟨result, ?_⟩
      simp only [log, changesIn_snoc, changes]
      exact done
    · simp only [log]
      rw [log_of_absent rid fun entry member same => named ⟨entry, member, same⟩]
      exact coherent.values addr n t born
  · intro addr unborn
    simp only [log]
    rw [log_of_absent rid]
    · exact coherent.unborn addr unborn
    · rintro entry member rfl
      obtain ⟨initial, -, -, born, -⟩ := spec entry member
      rw [show s.born entry.addr = none from unborn] at born
      cases born
  · intro before c after shape entry member
    rcases List.eq_nil_or_concat after with rfl | ⟨after, last, rfl⟩
    · obtain ⟨rfl, same⟩ := List.append_inj' shape rfl
      cases same
      obtain ⟨initial, value, old, born, -, reached, sameOld, same, -, changes⟩ :=
        spec entry member
      obtain ⟨result, done, sameLeft⟩ := replay_changed reached sameOld entry.left
      refine ⟨initial, value, result, born, reached, same, ?_, sameLeft⟩
      rw [changesIn_snoc, changes]
      exact done
    · have shorter : s.closed = before ++ c :: after := by
        rw [List.concat_eq_append, ← List.cons_append, ← List.append_assoc] at shape
        exact (List.append_inj' shape rfl).1
      exact coherent.serial before c after shorter entry member

/-! ## The forked function -/

/-- The caches once the function that `__close` forks has run. -/
def advance (s : Net Name Addr Rid Wid K V) (rid : Rid) (q : Query Name Addr K V) :
    Net Name Addr Rid Wid K V :=
  { s with caches := Function.update s.caches (s.worker rid) (q.close (s.cache rid)).1 }

theorem advance_apart {rid : Rid} {q : Query Name Addr K V} {wid : Wid} {n : Name}
    (apart : wid = s.worker rid → n ∉ q.names.take q.oldList.length) :
    ((s.advance rid q).caches wid).stateVersion n = (s.caches wid).stateVersion n ∧
      ((s.advance rid q).caches wid).stateMap n = (s.caches wid).stateMap n := by
  unfold advance
  by_cases here : wid = s.worker rid
  · subst here
    simpa [cache, Query.close] using
      Query.closeLoop_of_notMem (s.cache rid) q.oldList q.newList (apart rfl)
  · simp [here]

/-- The loop moves a changed table one version on, to the table that the handler left. -/
theorem advance_at {rid : Rid} {q : Query Name Addr K V} (shape : s.Shape rid q)
    (holds : s.Holds rid q changed) {n : Name} (member : n ∈ q.names.take q.oldList.length) :
    ∃ initial addr value map, s.born addr = some (n, initial) ∧
      replay initial (s.log addr) = some value ∧ value.Same map ∧
      s.source (s.worker rid) n = some addr ∧
      ((s.advance rid q).caches (s.worker rid)).stateVersion n = some (s.log addr).length ∧
      ((s.advance rid q).caches (s.worker rid)).stateMap n = some map := by
  obtain ⟨i, at'⟩ := List.mem_iff_getElem?.mp member
  have inside : i < q.oldList.length := by
    have bound := (List.getElem?_eq_some_iff.mp at').1
    exact Nat.lt_of_lt_of_le bound (List.length_take_le _ _)
  rw [List.getElem?_take_of_lt inside] at at'
  obtain ⟨name, addr, atName, atAddr⟩ := shape.fetched i inside
  obtain rfl : n = name := by simpa [atName] using at'.symm
  obtain ⟨old, atOld⟩ : ∃ old, q.oldList[i]? = some old := ⟨_, List.getElem?_eq_getElem inside⟩
  obtain ⟨new, atNew⟩ : ∃ new, q.newList[i]? = some new :=
    ⟨_, List.getElem?_eq_getElem (shape.lengths ▸ inside)⟩
  obtain ⟨initial, before, value, born, log, reached, same, version, map, source, -⟩ :=
    holds i n addr old new atName atAddr atOld atNew
  have moved := Query.closeLoop_at (s.cache rid) shape.distinct atName atOld atNew
  have stored : (s.advance rid q).caches (s.worker rid) = (q.close (s.cache rid)).1 := by
    simp [advance]
  rw [stored, Query.close, moved.1, moved.2]
  refine ⟨initial, addr, ?_⟩
  rw [log]
  obtain ⟨result, done, sameNew⟩ := replay_changed reached same new
  cases found : ltdiff old new with
  | none =>
      exact ⟨result, old, born, done,
        sameNew.trans ((ltdiff_eq_none_iff old new).mp found).symm, source,
        by simpa [changed, found, Query.commit] using version, by simpa [Query.commit] using map⟩
  | some diff =>
      exact ⟨result, new, born, done, sameNew, source,
        by simp [changed, found, Query.commit, version],
        by simp [Query.commit]⟩

/-- A query moves on with the caches of its worker; the cells still lack its changes. -/
theorem Coherent.advance (coherent : Coherent s) {rid : Rid} {q : Query Name Addr K V}
    (stage : s.stage rid = .closed q) (shape : s.Shape rid q)
    (held : s.mgr.phase rid = .held q.names) (holds : s.Holds rid q changed)
    {after : Stage Name Addr K V} (query : after.query = some q)
    (past : ((s.advance rid q).moveTo rid after).PastClose rid)
    (good : ((s.advance rid q).moveTo rid after).Good rid) :
    Coherent ((s.advance rid q).moveTo rid after) := by
  have covers := covers_of_held held
  refine ⟨coherent.sound, coherent.exclusive, coherent.addressed, ?_, coherent.calls,
    coherent.spawning, coherent.stated, coherent.granted, ?_, ?_, coherent.values,
    coherent.unborn, coherent.serial⟩
  · intro other
    by_cases here : other = rid
    · exact here ▸ good
    · refine Agree.good ?_ coherent.sound (coherent.good other)
      have apart : ∀ n, s.mgr.Covers other n → n ∉ q.names.take q.oldList.length := by
        intro n coversN member
        exact here (coherent.exclusive.single n other rid coversN
          (covers n (List.mem_of_mem_take member)))
      exact ⟨by simp [Net.moveTo, Net.advance, here], .inl rfl, rfl, rfl, fun _ member => member,
        rfl, fun n coversN => (advance_apart fun _ => apart n coversN).1,
        fun n coversN => (advance_apart fun _ => apart n coversN).2, fun _ _ => rfl,
        fun _ _ born => born, fun _ _ _ _ _ => rfl, fun _ _ _ _ _ _ there => there⟩
  · intro addr cell there
    obtain ⟨n, t, born, grown, rest⟩ := coherent.cells addr cell there
    refine ⟨n, t, born, grown, rest.imp_right ?_⟩
    rintro ⟨diff, lacks, owner, other, name, isQuery, ownerPast, ownerCovers, at'⟩
    refine ⟨diff, lacks, owner, other, name, ?_, ?_, ownerCovers, at'⟩
    · by_cases here : owner = rid
      · subst here
        rw [stage] at isQuery
        simp only [Net.moveTo, Function.update_self, query]
        exact isQuery
      · simpa [Net.moveTo, Net.advance, here] using isQuery
    · by_cases here : owner = rid
      · exact here ▸ past
      · unfold PastClose at ownerPast ⊢
        simpa [Net.moveTo, Net.advance, here] using ownerPast
  · intro wid n v version
    by_cases here : wid = s.worker rid → n ∉ q.names.take q.oldList.length
    · obtain ⟨sameVersion, sameMap⟩ := advance_apart here
      have before := coherent.caches wid n v (sameVersion.symm.trans version)
      rw [← sameMap] at before
      exact before
    · obtain ⟨rfl, member⟩ : wid = s.worker rid ∧ n ∈ q.names.take q.oldList.length := by
        simpa using here
      obtain ⟨initial, addr, value, map, born, reached, same, source, atVersion, atMap⟩ :=
        advance_at shape holds member
      have whole : (s.log addr).length = v := by
        have version : ((s.advance rid q).caches (s.worker rid)).stateVersion n = some v := version
        simpa [atVersion] using version
      refine ⟨map, addr, initial, value, atMap, source, born, Nat.le_of_eq whole.symm, ?_, same⟩
      show replay initial ((s.log addr).take v) = some value
      rw [← whole, List.take_length]
      exact reached

theorem Shape.length_le {rid : Rid} {q : Query Name Addr K V} (shape : s.Shape rid q) :
    q.oldList.length ≤ q.names.length := by
  refine Nat.not_lt.mp fun above => ?_
  obtain ⟨name, addr, atName, -⟩ := shape.fetched q.names.length above
  simp at atName

theorem Coherent.fork (coherent : Coherent s) {rid : Rid}
    (enabled : s.Enabled conf (.fork rid)) : Coherent (s.next conf (.fork rid)) := by
  obtain ⟨q, stage⟩ : ∃ q, s.stage rid = .closed q := by
    revert enabled
    simp only [Enabled]
    cases s.stage rid <;> simp
  obtain ⟨⟨shape, held⟩, holds⟩ := coherent.at_closed stage
  have shape' : ∀ after, ((s.advance rid q).moveTo rid after).Shape rid q := fun _ =>
    ⟨shape.distinct, shape.reply, shape.lengths, shape.fetched, shape.born⟩
  rcases Nat.lt_or_ge q.oldList.length q.names.length with short | enough
  · have broken : (q.close (s.cache rid)).2 = none :=
      Query.closeLoop_short _ shape.lengths.symm short
    simp only [next, stage, broken]
    refine coherent.advance stage shape held holds rfl
      (by simp [PastClose, Net.moveTo, Stage.past]) ?_
    unfold Good
    simp only [Net.moveTo, Function.update_self]
    exact ⟨shape' _, held⟩
  · have oldLength := Nat.le_antisymm shape.length_le enough
    have newLength := shape.lengths.trans oldLength
    have patchMap := Query.closeLoop_patchMap (s.cache rid) shape.distinct oldLength newLength
    simp only [next, stage, Query.close, patchMap]
    refine coherent.advance stage shape held holds rfl
      (by simp [PastClose, Net.moveTo, Stage.past]) ?_
    unfold Good
    simp only [Net.moveTo, Function.update_self]
    refine ⟨⟨shape' _, held⟩, ?_, ?_⟩
    · refine List.map_fst_zip ?_
      simp [oldLength, newLength]
    · intro name change member addr at' cell there
      obtain ⟨i, inZip⟩ := List.mem_iff_getElem?.mp member
      obtain ⟨atName, atChange⟩ := List.getElem?_zip_eq_some.mp inZip
      obtain ⟨old, new, atOld, atNew, rfl⟩ := List.getElem?_zipWith_eq_some.mp atChange
      obtain ⟨n, a, atN, atA⟩ := shape.fetched i (List.getElem?_eq_some_iff.mp atOld).1
      obtain rfl : name = n := by simpa [atName] using atN
      obtain rfl := At.unique shape at' ⟨i, atName, atA⟩
      obtain ⟨initial, before, value, -, log, -, -, -, -, -, cells⟩ :=
        holds i name addr old new atName atA atOld atNew
      show s.log addr = _
      rw [log, cells cell there]
      rfl

end Net

end WindLtask.System
