import WindLtask.System.ManagerSteps

/-!
# Steps of cells and queries in the system

A cell that takes a patch takes the one change it lacks.  A query that reads a
cell brings its worker's cache to the cell's value, and when it closes its
changes join the history of the cells.
-/

set_option linter.unusedSectionVars false

namespace WindLtask.System

open Manager World Process

variable {Name Addr Rid Wid K V : Type} [DecidableEq Name] [DecidableEq Addr] [DecidableEq Rid]
  [DecidableEq Wid] [DecidableEq K] [DecidableEq V]

namespace Net

variable {conf : Persistence Name K V} {s s' : Net Name Addr Rid Wid K V}

/-! ## Cells -/

/-- Two cells of names that two queries cover are different cells. -/
theorem Coherent.rid_eq (coherent : Coherent s) {first second : Rid} {n m : Name} {addr : Addr}
    {t u : Table K V} (left : s.born addr = some (n, t)) (right : s.born addr = some (m, u))
    (inFirst : s.mgr.Covers first n) (inSecond : s.mgr.Covers second m) : first = second := by
  rw [left] at right
  cases right
  exact coherent.exclusive.single n first second inFirst inSecond

theorem Coherent.exit (coherent : Coherent s) (addr : Addr) :
    Coherent (s.next conf (.exit addr)) := by
  have shrinks : ∀ {a cell}, Function.update s.cells addr none a = some cell →
      s.cells a = some cell := by
    intro a cell there
    by_cases here : a = addr
    · subst here
      simp at there
    · simpa [here] using there
  simp only [next]
  refine ⟨coherent.sound, coherent.exclusive, coherent.addressed, ?_, coherent.calls,
    coherent.spawning, coherent.stated, coherent.granted, ?_, coherent.caches, coherent.values,
    coherent.unborn, coherent.serial⟩
  · intro rid
    refine Agree.good ?_ coherent.sound (coherent.good rid)
    exact ⟨rfl, .inl rfl, rfl, rfl, fun _ member => member, rfl, fun _ _ => rfl, fun _ _ => rfl,
      fun _ _ => rfl, fun _ _ born => born, fun _ _ _ _ _ => rfl, fun _ _ _ _ _ _ => shrinks⟩
  · exact fun a cell there => coherent.cells a cell (shrinks there)

/-- The cell takes the change that it lacks. -/
theorem Coherent.patch (coherent : Coherent s) {rid : Rid}
    (enabled : s.Enabled conf (.patch rid)) : Coherent (s.next conf (.patch rid)) := by
  obtain ⟨addr, diff, called⟩ : ∃ addr diff, s.patchCall rid = .sent addr diff := by
    revert enabled
    simp only [Enabled]
    cases s.patchCall rid <;> simp
  obtain ⟨q, name, rest, stage, parked, shape, within, due, home, at', call⟩ :=
    coherent.parked_of_call (show s.patchCall rid ≠ .idle by rw [called]; simp)
  obtain ⟨same, owed⟩ : home = addr ∧ s.Due q [(name, some diff)] := by
    rcases call with ⟨other, sent, owed⟩ | ⟨ok, answered, -⟩
    · rw [called] at sent
      cases sent
      exact ⟨rfl, owed⟩
    · rw [called] at answered
      cases answered
  subst same
  have covers := covers_of_parked coherent.sound parked
  obtain ⟨initial, born⟩ := shape.born name home at'
  have phase := (coherent.sound.suspended rid _).mpr ⟨name, rest, parked, rfl⟩
  have notAgain : name ∉ rest.map Prod.fst :=
    (List.nodup_cons.mp (coherent.sound.distinct rid _ phase)).1
  have calls : ∀ call, call ≠ .idle → ∀ other, s.mgr.proc.patching other = none →
      Function.update s.patchCall rid call other = .idle := by
    intro call _ other none_parked
    have apart : other ≠ rid := by
      rintro rfl
      rw [parked] at none_parked
      cases none_parked
    rw [Function.update_of_ne apart]
    exact coherent.calls other none_parked
  cases cell : s.cells home with
  | none =>
      simp only [next, called, cell]
      refine ⟨coherent.sound, coherent.exclusive, coherent.addressed, ?_, calls _ (by simp),
        coherent.spawning, coherent.stated, coherent.granted, coherent.cells, coherent.caches,
        coherent.values, coherent.unborn, coherent.serial⟩
      intro other
      by_cases here : other = rid
      · subst here
        unfold Good
        simp only [stage]
        refine ⟨⟨shape.distinct, shape.reply, shape.lengths, shape.fetched, shape.born⟩,
          .inr (.inr ⟨name, rest, parked, within, due, home, at', .inr ⟨false, by simp, ?_⟩⟩)⟩
        intro n change member a atN now there
        cases List.mem_singleton.mp member
        rw [At.unique shape atN at', cell] at there
        cases there
      · refine Agree.good ?_ coherent.sound (coherent.good other)
        exact ⟨rfl, .inl rfl, rfl, by simp [here], fun _ member => member, rfl, fun _ _ => rfl,
          fun _ _ => rfl, fun _ _ => rfl, fun _ _ born => born, fun _ _ _ _ _ => rfl,
          fun _ _ _ _ _ _ there => there⟩
  | some old =>
      obtain ⟨n, t, born', grown, -⟩ := coherent.cells home old cell
      rw [born] at born'
      cases born'
      have lacks : s.log home = old.patches ++ [diff] := owed name (some diff)
        (List.mem_singleton.mpr rfl) home at' old cell
      obtain ⟨value, whole⟩ := coherent.values home name initial born
      rw [lacks, replay_snoc, grown.value, Option.bind_some] at whole
      obtain ⟨grownNext, patches⟩ := grown.patch whole
      have elsewhere : ∀ {a now}, a ≠ home →
          Function.update s.cells home (some (old.patch diff).1) a = some now →
            s.cells a = some now := by
        intro a now apart there
        simpa [apart] using there
      simp only [next, called, cell]
      refine ⟨coherent.sound, coherent.exclusive, coherent.addressed, ?_, calls _ (by simp),
        coherent.spawning, coherent.stated, coherent.granted, ?_, coherent.caches,
        coherent.values, coherent.unborn, coherent.serial⟩
      · intro other
        by_cases here : other = rid
        · subst here
          unfold Good
          simp only [stage]
          refine ⟨⟨shape.distinct, shape.reply, shape.lengths, shape.fetched, shape.born⟩,
            .inr (.inr ⟨name, rest, parked, within, ?_, home, at',
              .inr ⟨(old.patch diff).2, by simp, ?_⟩⟩)⟩
          · intro n change member a atN now there
            have apart : a ≠ home := by
              rintro rfl
              obtain ⟨u, bornN⟩ := shape.born n a atN
              rw [born] at bornN
              cases bornN
              exact notAgain (List.mem_map_of_mem member)
            exact due n change member a atN now (elsewhere apart there)
          · intro n change member a atN now there
            cases List.mem_singleton.mp member
            have same := At.unique shape atN at'
            subst same
            have now_eq : (old.patch diff).1 = now := by simpa using there
            rw [← now_eq, patches, Option.toList_none, List.append_nil]
            exact lacks
        · refine Agree.good ?_ coherent.sound (coherent.good other)
          refine ⟨rfl, .inl rfl, rfl, by simp [here], fun _ member => member, rfl, fun _ _ => rfl,
            fun _ _ => rfl, fun _ _ => rfl, fun _ _ born => born, fun _ _ _ _ _ => rfl, ?_⟩
          intro n a t now coversN bornN there
          refine elsewhere ?_ there
          rintro rfl
          exact here (coherent.rid_eq bornN born coversN (covers name List.mem_cons_self))
      · intro a now there
        by_cases here : a = home
        · subst here
          have now_eq : (old.patch diff).1 = now := by simpa using there
          subst now_eq
          refine ⟨name, initial, born, grownNext, .inl ?_⟩
          rw [patches]
          exact lacks
        · exact coherent.cells a now (elsewhere here there)

/-! ## Queries -/

/-- The owner of a change that its cell lacks is not a query that has yet to close. -/
theorem Owner.of_early {rid : Rid} {addr : Addr} (owner : s.Owner addr) (early : ¬ s.PastClose rid)
    (mgr : s'.mgr = s.mgr) (stage : ∀ other, other ≠ rid → s'.stage other = s.stage other) :
    s'.Owner addr := by
  obtain ⟨other, q, name, query, past, covers, at'⟩ := owner
  have apart : other ≠ rid := by
    rintro rfl
    exact early past
  refine ⟨other, q, name, ?_, ?_, ?_, at'⟩
  · rw [stage other apart]
    exact query
  · unfold PastClose at past ⊢
    rw [stage other apart]
    exact past
  · rw [mgr]
    exact covers

/-- A coroutine moves, and nothing else changes. -/
theorem Coherent.moveTo (coherent : Coherent s) {rid : Rid} (stage : Stage Name Addr K V)
    (good : (s.moveTo rid stage).Good rid) (early : ¬ s.PastClose rid) :
    Coherent (s.moveTo rid stage) := by
  refine ⟨coherent.sound, coherent.exclusive, coherent.addressed, ?_, coherent.calls,
    coherent.spawning, coherent.stated, coherent.granted, ?_, coherent.caches, coherent.values,
    coherent.unborn, coherent.serial⟩
  · intro other
    by_cases here : other = rid
    · exact here ▸ good
    · refine Agree.good ?_ coherent.sound (coherent.good other)
      exact ⟨by simp [Net.moveTo, here], .inl rfl, rfl, rfl, fun _ member => member, rfl,
        fun _ _ => rfl, fun _ _ => rfl, fun _ _ => rfl, fun _ _ born => born,
        fun _ _ _ _ _ => rfl, fun _ _ _ _ _ _ there => there⟩
  · intro addr cell there
    obtain ⟨n, t, born, grown, rest⟩ := coherent.cells addr cell there
    refine ⟨n, t, born, grown, rest.imp_right ?_⟩
    rintro ⟨diff, shape, owner⟩
    exact ⟨diff, shape, owner.of_early early rfl fun other apart => by simp [Net.moveTo, apart]⟩

/-- The worker of a query that has not begun is free to choose. -/
theorem Coherent.assign (coherent : Coherent s) {rid : Rid} (idle : s.stage rid = .idle)
    (wid : Wid) : Coherent { s with worker := Function.update s.worker rid wid } := by
  refine ⟨coherent.sound, coherent.exclusive, coherent.addressed, ?_, coherent.calls,
    coherent.spawning, coherent.stated, coherent.granted, coherent.cells, coherent.caches,
    coherent.values, coherent.unborn, coherent.serial⟩
  intro other
  have good := coherent.good other
  by_cases here : other = rid
  · subst here
    unfold Good at good ⊢
    simp only [idle] at good ⊢
    exact good
  · refine Agree.good ?_ coherent.sound good
    have still : Function.update s.worker rid wid other = s.worker other := by simp [here]
    refine ⟨rfl, .inl rfl, rfl, rfl, fun _ member => member, still, ?_, ?_, fun _ _ => rfl,
      fun _ _ born => born, fun _ _ _ _ _ => rfl, fun _ _ _ _ _ _ there => there⟩
    · intro n _
      simp only [cache, still]
    · intro n _
      simp only [cache, still]

theorem Coherent.begin (coherent : Coherent s) {rid : Rid} {wid : Wid} {names : List Name}
    (enabled : s.Enabled conf (.begin rid wid names)) (distinct : names.Nodup) :
    Coherent (s.next conf (.begin rid wid names)) := by
  have stage : s.stage rid = .idle := by
    revert enabled
    simp only [Enabled]
    cases s.stage rid <;> simp
  have assigned := coherent.assign stage wid
  refine assigned.moveTo (.asking names) ?_ ?_
  · have good := coherent.good rid
    unfold Good at good ⊢
    simp only [stage] at good
    simp only [Net.moveTo, Function.update_self]
    exact ⟨good, distinct⟩
  · simp [PastClose, stage, Stage.past]

/-- The loop goes on to its next call, or returns. -/
theorem good_proceed {rid : Rid} {q : Query Name Addr K V} (shape : s.Shape rid q)
    (held : s.mgr.phase rid = .held q.names) (holds : s.Holds rid q unchanged)
    (copies : q.Copies) : (s.moveTo rid (proceed (s.cache rid) q)).Good rid := by
  have shape' : ∀ stage, Shape { s with stage := stage } rid q := fun _ =>
    ⟨shape.distinct, shape.reply, shape.lengths, shape.fetched, shape.born⟩
  unfold Good
  unfold proceed
  cases awaits : q.awaits with
  | none =>
      simp only [Net.moveTo, Function.update_self]
      exact ⟨⟨shape' _, held⟩, awaits, holds, copies⟩
  | some call =>
      obtain ⟨name, addr⟩ := call
      simp only [Net.moveTo, Function.update_self]
      exact ⟨⟨shape' _, held⟩, awaits, holds, copies, rfl⟩

theorem Coherent.granted_reply (coherent : Coherent s) {rid : Rid}
    {list : List (Option Addr)} {border : Nat}
    (enabled : s.Enabled conf (.granted rid list border)) :
    Coherent (s.next conf (.granted rid list border)) := by
  obtain ⟨names, stage, reply, member, own, shape⟩ : ∃ names, s.stage rid = .locking names ∧
      ∃ reply ∈ s.mgr.replies, reply.rid = rid ∧ reply.list = list := by
    revert enabled
    simp only [Enabled]
    cases s.stage rid <;> simp
  have good := coherent.at_locking stage
  subst own
  have held : s.mgr.phase reply.rid = .held names := by
    refine good.1.resolve_left fun queued => ?_
    exact ((coherent.sound.replied reply.rid).mp (List.mem_map_of_mem member)).2 names queued
  obtain ⟨others, asked, answers⟩ := coherent.sound.answers reply member
  have same : others = names :=
    coherent.sound.names_eq asked (coherent.sound.named _ _ (.inr held))
  subst same
  have whole : s.Shape reply.rid (Query.start others list border) := by
    refine ⟨good.2, ⟨reply, member, rfl, shape ▸ answers⟩, rfl, by simp [Query.start], ?_⟩
    rintro name addr ⟨i, atName, atAddr⟩
    have atAddr : list[i]? = some (some addr) := atAddr
    rw [← shape, answers, List.getElem?_map, show others[i]? = some name from atName] at atAddr
    exact coherent.granted reply member name addr (by simpa using atAddr)
  simp only [next, stage]
  refine coherent.moveTo _ (good_proceed whole held ?_ ?_) (by simp [PastClose, stage, Stage.past])
  · intro i name addr old new _ _ atOld
    simp [Query.start] at atOld
  · intro i old new atOld
    simp [Query.start] at atOld

theorem Coherent.shape (coherent : Coherent s) {rid : Rid} {q : Query Name Addr K V}
    (query : (s.stage rid).query = some q) : s.Shape rid q := by
  have good := coherent.good rid
  unfold Good at good
  cases stage : s.stage rid <;> rw [stage] at good query <;> cases query <;>
    first | exact good.1.1 | exact good.1

/-- The cell of a name that a query covers before it closes has taken every change. -/
theorem Coherent.log_of_open (coherent : Coherent s) {rid : Rid} {name : Name} {addr : Addr}
    {t : Table K V} {cell : Cell K V} (covers : s.mgr.Covers rid name) (early : ¬ s.PastClose rid)
    (born : s.born addr = some (name, t)) (there : s.cells addr = some cell) :
    cell.Grown t ∧ s.log addr = cell.patches := by
  obtain ⟨n, u, born', grown, prefix'⟩ := coherent.cells addr cell there
  rw [born] at born'
  cases born'
  refine ⟨grown, prefix'.resolve_right ?_⟩
  rintro ⟨diff, -, owner, q, n, query, past, ownerCovers, at'⟩
  obtain ⟨u, bornAt⟩ := (coherent.shape query).born n addr at'
  have same : rid = owner := coherent.rid_eq born bornAt covers ownerCovers
  exact early (same ▸ past)

/--
What the worker has cached for the name is from this cell, or carries a version
that the cell answers with its whole table.
-/
def Distinguished (s : Net Name Addr Rid Wid K V) (rid : Rid) (name : Name) (addr : Addr) :
    Prop :=
  ∀ v, (s.cache rid).stateVersion name = some v → s.source (s.worker rid) name = some addr ∨
    ∀ cell, s.cells addr = some cell → cell.version < v ∨ v = 0 ∧ 0 < cell.version

theorem Coherent.answer (coherent : Coherent s) {rid : Rid}
    (enabled : s.Enabled conf (.answer rid))
    (distinguished : ∀ q name addr v, s.stage rid = .calling q name addr v →
      s.Distinguished rid name addr) : Coherent (s.next conf (.answer rid)) := by
  obtain ⟨q, name, addr, v, stage, there⟩ : ∃ q name addr v,
      s.stage rid = .calling q name addr v ∧ (s.cells addr).isSome := by
    revert enabled
    simp only [Enabled]
    cases s.stage rid <;> simp
  obtain ⟨cell, there⟩ := Option.isSome_iff_exists.mp there
  obtain ⟨⟨shape, held⟩, awaits, holds, copies, rfl⟩ := coherent.at_calling stage
  have early : ¬ s.PastClose rid := by simp [PastClose, stage, Stage.past]
  have covers := covers_of_held held name (q.name_mem_of_awaits awaits)
  obtain ⟨initial, born⟩ := shape.born name addr (q.at_of_awaits awaits)
  obtain ⟨grown, log⟩ := coherent.log_of_open covers early born there
  have apart := distinguished q name addr _ stage
  have answered : s.Answered rid name addr (cell.query ((s.cache rid).stateVersion name)) := by
    refine ⟨initial, cell, born, grown, log, rfl, ?_, ?_, ?_⟩
    · cases version : (s.cache rid).stateVersion name with
      | none => exact .absent _
      | some v =>
          obtain ⟨map, home, t, value, atMap, source, bornHome, bound, reached, same⟩ :=
            coherent.caches (s.worker rid) name v version
          rw [show (s.cache rid).stateMap name = some map from atMap]
          rcases apart v version with here | unlike
          · rw [here] at source
            cases source
            rw [born] at bornHome
            cases bornHome
            rw [log] at bound reached
            exact .earlier v map value (by rw [grown.version]; exact bound) reached same
          · rcases unlike cell there with above | ⟨rfl, moved⟩
            · exact .ahead v _ above
            · exact .zero _ moved
    · intro current
      refine (apart _ current).resolve_right fun unlike => ?_
      rcases unlike cell there with above | ⟨zero, moved⟩
      · exact absurd above (Nat.lt_irrefl _)
      · exact absurd moved (by omega)
    · intro now stillThere
      rw [there] at stillThere
      exact (Option.some.inj stillThere).symm
  simp only [next, stage, there]
  refine coherent.moveTo _ ?_ early
  unfold Good
  simp only [Net.moveTo, Function.update_self]
  exact ⟨⟨⟨shape.distinct, shape.reply, shape.lengths, shape.fetched, shape.born⟩, held⟩, awaits,
    holds, copies, answered⟩

/-- A coroutine that ends with an error keeps its grant. -/
theorem Coherent.raises (coherent : Coherent s) {rid : Rid} {names : List Name}
    (held : s.mgr.phase rid = .held names) (early : ¬ s.PastClose rid) :
    Coherent (s.moveTo rid (.raised names)) := by
  refine coherent.moveTo _ ?_ early
  unfold Good
  simpa only [Net.moveTo, Function.update_self] using held

theorem Coherent.refuse (coherent : Coherent s) {rid : Rid}
    (enabled : s.Enabled conf (.refuse rid)) : Coherent (s.next conf (.refuse rid)) := by
  cases stage : s.stage rid with
  | calling q name addr v =>
      simp only [next, stage]
      exact coherent.raises (coherent.at_calling stage).1.2 (by simp [PastClose, stage, Stage.past])
  | _ => simp [Enabled, stage] at enabled

theorem Coherent.raise (coherent : Coherent s) {rid : Rid}
    (enabled : s.Enabled conf (.raise rid)) : Coherent (s.next conf (.raise rid)) := by
  cases stage : s.stage rid with
  | running q =>
      simp only [next, stage]
      exact coherent.raises (coherent.at_running stage).1.2 (by simp [PastClose, stage, Stage.past])
  | _ => simp [Enabled, stage] at enabled

/-! ## The loop body of a query -/

/-- The worker of `rid` stores the table that it got from a cell. -/
def fetch (s : Net Name Addr Rid Wid K V) (rid : Rid) (name : Name) (addr : Addr)
    (version : Nat) (old : Table K V) : Net Name Addr Rid Wid K V :=
  { s with
    caches := Function.update s.caches (s.worker rid) ((s.cache rid).store name version old)
    source :=
      if (s.cache rid).stateVersion name = some version then s.source
      else Function.update s.source (s.worker rid)
        (Function.update (s.source (s.worker rid)) name (some addr)) }

@[simp] theorem fetch_cache (s : Net Name Addr Rid Wid K V) (rid : Rid) (name : Name)
    (addr : Addr) (version : Nat) (old : Table K V) :
    (s.fetch rid name addr version old).cache rid = (s.cache rid).store name version old := by
  simp [fetch, cache]

/-- The answer leaves the worker with the value that the cell holds. -/
theorem receive_eq (conf : Persistence Name K V) {rid : Rid} {q : Query Name Addr K V}
    {name : Name} {addr : Addr}
    {answer : Answer K V} (stage : s.stage rid = .answered q name addr answer)
    (answered : s.Answered rid name addr answer) :
    ∃ initial cell old, s.born addr = some (name, initial) ∧ cell.Grown initial ∧
      s.log addr = cell.patches ∧ (∀ now, s.cells addr = some now → now = cell) ∧
      cell.t.Same old ∧
      ((s.cache rid).stateVersion name = some cell.version →
        s.source (s.worker rid) name = some addr) ∧
      s.next conf (.receive rid) =
        { (s.fetch rid name addr cell.version old).moveTo rid
            (proceed ((s.cache rid).store name cell.version old)
              { q with oldList := q.oldList ++ [old], newList := q.newList ++ [old.clone] }) with
          reads := s.reads ++ [⟨rid, name, addr, old.clone,
            ((s.mgr.proc.state name).bind s.cells).map Cell.t⟩] } := by
  obtain ⟨initial, cell, born, grown, log, rfl, fits, current, still⟩ := answered
  obtain ⟨old, updated, same⟩ := updateState_of_fits grown (s.cache rid) name fits
  have version := cell.query_version ((s.cache rid).stateVersion name)
  refine ⟨initial, cell, old, born, grown, log, still, same, current, ?_⟩
  simp only [next, stage, receive, Query.receive, updated, Option.map_some, version, fetch,
    Net.moveTo, List.getLast?_append, List.getLast?_singleton, Option.some_or, Option.toList_some]

theorem fetch_here {rid : Rid} {name : Name} {addr : Addr} {version : Nat} (old : Table K V)
    (current : (s.cache rid).stateVersion name = some version →
      s.source (s.worker rid) name = some addr) :
    (s.fetch rid name addr version old).source (s.worker rid) name = some addr := by
  unfold fetch
  split_ifs with same
  · exact current same
  · simp

theorem fetch_apart (s : Net Name Addr Rid Wid K V) {rid : Rid} {name : Name} (addr : Addr)
    (version : Nat) (old : Table K V)
    (wid : Wid) {n : Name} (apart : wid = s.worker rid → n ≠ name) :
    ((s.fetch rid name addr version old).caches wid).stateVersion n =
        (s.caches wid).stateVersion n ∧
      ((s.fetch rid name addr version old).caches wid).stateMap n = (s.caches wid).stateMap n ∧
      (s.fetch rid name addr version old).source wid n = s.source wid n := by
  unfold fetch
  by_cases here : wid = s.worker rid
  · subst here
    refine ⟨by simp [Cache.store, cache, apart rfl], by simp [Cache.store, cache, apart rfl], ?_⟩
    split_ifs
    · rfl
    · simp [apart rfl]
  · refine ⟨by simp [here], by simp [here], ?_⟩
    split_ifs
    · rfl
    · simp [here]

/-- The loop stores the table of a cell and goes on. -/
theorem Coherent.fetch (coherent : Coherent s) {rid : Rid} {name : Name} {addr : Addr}
    {initial old : Table K V} {cell : Cell K V} (covers : s.mgr.Covers rid name)
    (early : ¬ s.PastClose rid) (born : s.born addr = some (name, initial))
    (grown : cell.Grown initial) (log : s.log addr = cell.patches) (same : cell.t.Same old)
    (current : (s.cache rid).stateVersion name = some cell.version →
      s.source (s.worker rid) name = some addr) {stage : Stage Name Addr K V}
    (good : ((s.fetch rid name addr cell.version old).moveTo rid stage).Good rid) :
    Coherent ((s.fetch rid name addr cell.version old).moveTo rid stage) := by
  refine ⟨coherent.sound, coherent.exclusive, coherent.addressed, ?_, coherent.calls,
    coherent.spawning, coherent.stated, coherent.granted, ?_, ?_, coherent.values,
    coherent.unborn, coherent.serial⟩
  · intro other
    by_cases here : other = rid
    · exact here ▸ good
    · refine Agree.good ?_ coherent.sound (coherent.good other)
      have apart : ∀ n, s.mgr.Covers other n → n ≠ name := by
        rintro n coversN rfl
        exact here (coherent.exclusive.single n other rid coversN covers)
      exact ⟨by simp [Net.moveTo, Net.fetch, here], .inl rfl, rfl, rfl, fun _ member => member, rfl,
        fun n coversN => (fetch_apart s addr _ old _ fun _ => apart n coversN).1,
        fun n coversN => (fetch_apart s addr _ old _ fun _ => apart n coversN).2.1,
        fun n coversN => (fetch_apart s addr _ old _ fun _ => apart n coversN).2.2,
        fun _ _ born => born, fun _ _ _ _ _ => rfl, fun _ _ _ _ _ _ there => there⟩
  · intro a now there
    obtain ⟨n, t, bornN, grownN, rest⟩ := coherent.cells a now there
    refine ⟨n, t, bornN, grownN, rest.imp_right ?_⟩
    rintro ⟨diff, shape, owner⟩
    exact ⟨diff, shape, owner.of_early early rfl fun other apart => by
      simp [Net.moveTo, Net.fetch, apart]⟩
  · intro wid n v version
    by_cases here : wid = s.worker rid → n ≠ name
    · obtain ⟨sameVersion, sameMap, sameSource⟩ := fetch_apart s addr cell.version old _ here
      have before := coherent.caches wid n v (sameVersion.symm.trans version)
      rw [← sameMap, ← sameSource] at before
      exact before
    · obtain ⟨rfl, rfl⟩ : wid = s.worker rid ∧ n = name := by simpa using here
      have stored : ((s.fetch rid n addr cell.version old).caches (s.worker rid)) =
          (s.cache rid).store n cell.version old := by simp [Net.fetch]
      have atVersion : cell.version = v := by
        have version :
            ((s.fetch rid n addr cell.version old).caches (s.worker rid)).stateVersion n =
          some v := version
        simpa [stored, Cache.store] using version
      have atMap : ((s.fetch rid n addr cell.version old).caches (s.worker rid)).stateMap n =
          some old := by simp [stored, Cache.store]
      refine ⟨old, addr, initial, cell.t, atMap, fetch_here old current, born, ?_, ?_, same⟩
      · show v ≤ (s.log addr).length
        exact Nat.le_of_eq (by rw [log, ← grown.version, atVersion])
      · show replay initial ((s.log addr).take v) = some cell.t
        rw [log, ← atVersion, grown.version, List.take_length]
        exact grown.value

/-- What the query holds once it has stored the table of the cell that it awaits. -/
theorem holds_fetch {rid : Rid} {q : Query Name Addr K V} {name : Name} {addr : Addr}
    {initial old : Table K V} {cell : Cell K V} (shape : s.Shape rid q)
    (awaits : q.awaits = some (name, addr)) (holds : s.Holds rid q unchanged)
    (born : s.born addr = some (name, initial)) (grown : cell.Grown initial)
    (log : s.log addr = cell.patches) (still : ∀ now, s.cells addr = some now → now = cell)
    (same : cell.t.Same old)
    (current : (s.cache rid).stateVersion name = some cell.version →
      s.source (s.worker rid) name = some addr) :
    (s.fetch rid name addr cell.version old).Holds rid
      { q with oldList := q.oldList ++ [old], newList := q.newList ++ [old.clone] } unchanged := by
  obtain ⟨nextName, nextAddr⟩ := (q.awaits_eq_some_iff name addr).mp awaits
  intro i n a o m atName atAddr atOld atNew
  have atName : q.names[i]? = some n := atName
  have atAddr : q.addrs[i]? = some (some a) := atAddr
  by_cases inside : i < q.oldList.length
  · have atOld : q.oldList[i]? = some o := by
      simpa [List.getElem?_append_left inside] using atOld
    have atNew : q.newList[i]? = some m := by
      have inside : i < q.newList.length := shape.lengths ▸ inside
      simpa [List.getElem?_append_left inside] using atNew
    have apart : n ≠ name := by
      rintro rfl
      have bound := (List.getElem?_eq_some_iff.mp atName).1
      have here : i = q.oldList.length :=
        (List.getElem?_inj bound shape.distinct).mp (atName.trans nextName.symm)
      exact absurd inside (by rw [here]; exact Nat.lt_irrefl _)
    obtain ⟨t, before, value, bornN, logN, reached, sameN, version, map, source, cells⟩ :=
      holds i n a o m atName atAddr atOld atNew
    obtain ⟨sameVersion, sameMap, sameSource⟩ :=
      fetch_apart s addr cell.version old (s.worker rid) fun _ => apart
    exact ⟨t, before, value, bornN, logN, reached, sameN, sameVersion.trans version,
      sameMap.trans map, sameSource.trans source, cells⟩
  · have last : i = q.oldList.length := by
      have bound := (List.getElem?_eq_some_iff.mp atOld).1
      simp only [List.length_append, List.length_singleton] at bound
      omega
    subst last
    obtain rfl : n = name := by simpa [nextName] using atName.symm
    obtain rfl : a = addr := by simpa [nextAddr] using atAddr.symm
    obtain rfl : o = old := by simpa using atOld.symm
    refine ⟨initial, cell.patches, cell.t, born, log.trans (List.append_nil _).symm, grown.value,
      same, ?_, by simp [Cache.store], fetch_here o current, ?_⟩
    · simp [Cache.store, grown.version]
    · intro now there
      rw [still now there]

/-- The history of reads plays no part. -/
theorem Coherent.recordReads (coherent : Coherent s) (reads : List (Read Name Addr Rid K V)) :
    Coherent { s with reads := reads } := by
  refine ⟨coherent.sound, coherent.exclusive, coherent.addressed, ?_, coherent.calls,
    coherent.spawning, coherent.stated, coherent.granted, coherent.cells, coherent.caches,
    coherent.values, coherent.unborn, coherent.serial⟩
  intro rid
  refine Agree.good ?_ coherent.sound (coherent.good rid)
  exact ⟨rfl, .inl rfl, rfl, rfl, fun _ member => member, rfl, fun _ _ => rfl, fun _ _ => rfl,
    fun _ _ => rfl, fun _ _ born => born, fun _ _ _ _ _ => rfl, fun _ _ _ _ _ _ there => there⟩

/-- The query with the table that it got last. -/
theorem Coherent.receive (coherent : Coherent s) {rid : Rid}
    (enabled : s.Enabled conf (.receive rid)) : Coherent (s.next conf (.receive rid)) := by
  obtain ⟨q, name, addr, answer, stage⟩ : ∃ q name addr answer,
      s.stage rid = .answered q name addr answer := by
    revert enabled
    simp only [Enabled]
    cases s.stage rid <;> simp
  obtain ⟨⟨shape, held⟩, awaits, holds, copies, answered⟩ := coherent.at_answered stage
  obtain ⟨initial, cell, old, born, grown, log, still, same, current, after⟩ :=
    receive_eq conf stage answered
  have covers := covers_of_held held name (q.name_mem_of_awaits awaits)
  have early : ¬ s.PastClose rid := by simp [PastClose, stage, Stage.past]
  have longer : (s.fetch rid name addr cell.version old).Shape rid
      { q with oldList := q.oldList ++ [old], newList := q.newList ++ [old.clone] } := by
    refine ⟨shape.distinct, shape.reply, by simp [shape.lengths], ?_, shape.born⟩
    intro i bound
    rcases Nat.lt_or_ge i q.oldList.length with inside | last
    · exact shape.fetched i inside
    · obtain rfl : i = q.oldList.length := by simp at bound; omega
      exact ⟨name, addr, (q.awaits_eq_some_iff name addr).mp awaits⟩
  have fetched := coherent.fetch covers early born grown log same current
    (good_proceed longer held (holds_fetch shape awaits holds born grown log still same current)
      (copies.snoc shape.lengths old))
  rw [fetch_cache] at fetched
  rw [after]
  exact fetched.recordReads _

end Net

end WindLtask.System
