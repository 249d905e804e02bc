import WindLtask.System.Serial
import WindLtask.Worker.Request

/-!
# Requests of players in the system

The services with `S.player_login` and `S.player_request` as the only users of
`starre`: a login creates the state of a player that has none, and every query is
that of a request, whose handler runs between the return of `starre.query` and
the end of its scope.  A request comes after the login of its player has
returned.  Everything else that happens is messages under way.
-/

set_option linter.unusedSectionVars false

namespace WindLtask.System

open Manager Process

section Net

variable {Name Addr Rid Wid K V : Type} [DecidableEq Name] [DecidableEq Addr] [DecidableEq Rid]
  [DecidableEq Wid] [DecidableEq K] [DecidableEq V]

/-- The names of the query that stands there. -/
def Stage.names : Stage Name Addr K V → Option (List Name)
  | .idle => none
  | .asking names | .locking names | .raised names => some names
  | .calling q _ _ _ | .answered q _ _ _ | .running q | .closed q | .unlocking q _ | .returned q
  | .broken q => some q.names

/-- The handler of the query has run, or will not run any more. -/
def Stage.ended : Stage Name Addr K V → Bool
  | .closed _ | .unlocking _ _ | .returned _ | .broken _ | .raised _ => true
  | _ => false

/-- A query keeps its names, and what has ended stays so. -/
structure Stage.Follows (before after : Stage Name Addr K V) : Prop where
  names : after.names = before.names
  ended : before.ended → after.ended

theorem Stage.Follows.refl (stage : Stage Name Addr K V) : stage.Follows stage :=
  ⟨rfl, id⟩

theorem Stage.Follows.of_eq {before after : Stage Name Addr K V} (same : after = before) :
    before.Follows after :=
  same ▸ .refl before

namespace Net

variable {conf : Persistence Name K V} {s : Net Name Addr Rid Wid K V}

theorem names_proceed (cache : Cache Name K V) (q : Query Name Addr K V) :
    (proceed cache q).names = some q.names := by
  unfold proceed
  split <;> rfl

/-- One coroutine moves. -/
theorem follows_moved {rid : Rid} {after : Stage Name Addr K V}
    (follows : (s.stage rid).Follows after) (other : Rid) :
    (s.stage other).Follows (Function.update s.stage rid after other) := by
  by_cases here : other = rid
  · subst here
    simpa using follows
  · simpa [here] using Stage.Follows.refl (s.stage other)

/-- A coroutine that goes on in the loop of `starre.query`, or to the handler. -/
theorem follows_proceed (cache : Cache Name K V) {before : Stage Name Addr K V}
    {q : Query Name Addr K V} (names : before.names = some q.names) (early : before.ended = false) :
    before.Follows (proceed cache q) :=
  ⟨(names_proceed cache q).trans names.symm, by simp [early]⟩

/-- Only `begin` brings in names. -/
theorem follows_next {label : Label Name Addr Rid Wid K V} (enabled : s.Enabled conf label)
    (later : ∀ rid wid names, label ≠ .begin rid wid names) (other : Rid) :
    (s.stage other).Follows ((s.next conf label).stage other) := by
  cases label with
  | begin rid wid names => exact absurd rfl (later rid wid names)
  | lock rid names =>
      have sent := (delivered s (.lock rid names)).stage
      cases stage : s.stage rid with
      | asking asked =>
          obtain rfl : asked = names := by simpa [Enabled, stage] using enabled
          simp only [next, moveTo, sent]
          exact follows_moved (by rw [stage]; exact ⟨rfl, id⟩) other
      | _ => simp [Enabled, stage] at enabled
  | granted rid list border =>
      cases stage : s.stage rid with
      | locking names =>
          simp only [next, stage]
          exact follows_moved (by rw [stage]; exact follows_proceed _ rfl rfl) other
      | _ => simp [Enabled, stage] at enabled
  | answer rid =>
      cases stage : s.stage rid with
      | calling q name addr v =>
          simp only [next, stage]
          split
          · exact follows_moved (by rw [stage]; exact ⟨rfl, id⟩) other
          · exact .refl _
      | _ => simp [Enabled, stage] at enabled
  | refuse rid =>
      cases stage : s.stage rid with
      | calling q name addr v =>
          simp only [next, stage]
          exact follows_moved (by rw [stage]; exact ⟨rfl, fun _ => rfl⟩) other
      | _ => simp [Enabled, stage] at enabled
  | receive rid =>
      cases stage : s.stage rid with
      | answered q name addr answer =>
          simp only [next, stage, receive]
          split
          · next q' taken =>
            have whole : q'.names = q.names := by
              obtain ⟨old, -, rfl⟩ := Option.map_eq_some_iff.mp taken
              rfl
            exact follows_moved (by rw [stage]; exact follows_proceed _ (whole ▸ rfl) rfl) other
          · exact follows_moved (by rw [stage]; exact ⟨rfl, fun _ => rfl⟩) other
      | _ => simp [Enabled, stage] at enabled
  | raise rid =>
      cases stage : s.stage rid with
      | running q =>
          simp only [next, stage]
          exact follows_moved (by rw [stage]; exact ⟨rfl, fun _ => rfl⟩) other
      | _ => simp [Enabled, stage] at enabled
  | close rid tables =>
      cases stage : s.stage rid with
      | running q =>
          simp only [next, stage]
          exact follows_moved (by rw [stage]; exact ⟨rfl, fun _ => rfl⟩) other
      | _ => simp [Enabled, stage] at enabled
  | fork rid =>
      cases stage : s.stage rid with
      | closed q =>
          simp only [next, stage]
          split
          · exact follows_moved (by rw [stage]; exact ⟨rfl, fun _ => rfl⟩) other
          · exact follows_moved (by rw [stage]; exact ⟨rfl, fun _ => rfl⟩) other
      | _ => simp [Enabled, stage] at enabled
  | unlock rid entries =>
      have sent := (delivered s (.unlock rid entries)).stage
      cases stage : s.stage rid with
      | unlocking q patchMap =>
          simp only [next, stage, moveTo, sent]
          exact follows_moved (by rw [stage]; exact ⟨rfl, fun _ => rfl⟩) other
      | _ => simp [Enabled, stage] at enabled
  | patched | patchFailed | newstate | spawnFailed | releasestate =>
      exact .of_eq (congrFun (delivered _ _).stage other)
  | patch rid =>
      simp only [next]
      repeat' split
      all_goals exact .refl _
  | spawned rid addr =>
      simp only [next]
      split
      · exact .of_eq (congrFun (delivered _ _).stage other)
      · exact .refl _
  | exit addr => exact .refl _

/-- Only `begin` gives a coroutine its worker. -/
theorem worker_next {label : Label Name Addr Rid Wid K V}
    (later : ∀ rid wid names, label ≠ .begin rid wid names) :
    (s.next conf label).worker = s.worker := by
  cases label with
  | begin rid wid names => exact absurd rfl (later rid wid names)
  | lock | patched | patchFailed | newstate | spawnFailed | releasestate =>
      exact (delivered _ _).worker
  | spawned rid addr =>
      simp only [next]
      split
      · exact (delivered _ _).worker
      · rfl
  | unlock rid entries =>
      simp only [next]
      split
      · exact (delivered _ _).worker
      · rfl
  | receive rid =>
      simp only [next, receive]
      repeat' split
      all_goals rfl
  | _ =>
      simp only [next]
      repeat' split
      all_goals rfl

/-- A cell that has been made stays on record. -/
theorem born_grows {label : Label Name Addr Rid Wid K V} (enabled : s.Enabled conf label)
    {addr : Addr} {entry : Name × Table K V} (born : s.born addr = some entry) :
    (s.next conf label).born addr = some entry := by
  cases label with
  | spawned rid new =>
      obtain ⟨fresh, name, t, creating, begun⟩ := enabled
      obtain ⟨cell, begun⟩ := Option.isSome_iff_exists.mp begun
      have apart : addr ≠ new := by
        rintro rfl
        rw [fresh] at born
        cases born
      simp only [next, creating, Option.bind_some, begun, Option.map_some]
      rw [(delivered _ _).born]
      simpa [apart] using born
  | _ =>
      rw [born_next (by simp)]
      exact born

/-- A cell on record was there before, or its `newstate` completes. -/
theorem born_cases {label : Label Name Addr Rid Wid K V} (enabled : s.Enabled conf label)
    {addr : Addr} {name : Name} {t : Table K V}
    (born : (s.next conf label).born addr = some (name, t)) :
    s.born addr = some (name, t) ∨ ∃ rid u cell, label = .spawned rid addr ∧
      s.born addr = none ∧ s.creating rid = some (name, u) ∧
      Cell.start conf name u = some cell ∧ cell.t = t ∧
      (s.next conf label).cells addr = some cell := by
  cases label with
  | spawned rid new =>
      obtain ⟨fresh, asked, u, creating, begun⟩ := enabled
      obtain ⟨cell, begun⟩ := Option.isSome_iff_exists.mp begun
      simp only [next, creating, Option.bind_some, begun, Option.map_some] at born ⊢
      rw [(delivered _ _).born] at born
      by_cases here : addr = new
      · subst here
        obtain ⟨rfl, rfl⟩ : asked = name ∧ cell.t = t := by simpa using born
        exact .inr ⟨rid, u, cell, rfl, fresh, creating, begun, rfl, by
          rw [(delivered _ _).cells]
          simp⟩
      · exact .inl (by simpa [here] using born)
  | _ =>
      rw [born_next (by simp)] at born
      exact .inl born

/-- A name that has a cell keeps it where nothing is released. -/
theorem Settled.state_grows (settled : Settled s) (coherent : Coherent s)
    {label : Label Name Addr Rid Wid K V} (fixed : s.Fixed label) (enabled : s.Enabled conf label)
    {n : Name} {addr : Addr} (state : s.mgr.proc.state n = some addr) :
    (s.next conf label).mgr.proc.state n = some addr := by
  obtain ⟨t, born⟩ := coherent.stated n addr state
  exact (settled.step coherent fixed ⟨enabled, rfl⟩).present addr n t (born_grows enabled born)

/-- A cell keeps its patches and takes new ones at the end. -/
theorem Coherent.cells_grow (coherent : Coherent s) {label : Label Name Addr Rid Wid K V}
    (enabled : s.Enabled conf label) (stays : ∀ addr, label ≠ .exit addr) {addr : Addr}
    {cell : Cell K V} (there : s.cells addr = some cell) :
    ∃ cell', (s.next conf label).cells addr = some cell' ∧ cell.patches <+: cell'.patches := by
  have still : (s.next conf label).cells addr = s.cells addr →
      ∃ cell', (s.next conf label).cells addr = some cell' ∧ cell.patches <+: cell'.patches :=
    fun same => ⟨cell, same.trans there, List.prefix_rfl⟩
  cases label with
  | exit addr => exact absurd rfl (stays addr)
  | patch rid =>
      cases call : s.patchCall rid with
      | sent target diff =>
          by_cases here : addr = target
          · subst here
            refine ⟨(cell.patch diff).1, by simp [next, call, there], ?_⟩
            simp only [Cell.patch]
            split <;> exact List.prefix_append _ _
          · refine still ?_
            simp only [next, call]
            split
            · simp [here]
            · rfl
      | _ => simp [Enabled, call] at enabled
  | spawned rid new =>
      obtain ⟨fresh, name, t, creating, begun⟩ := enabled
      obtain ⟨cell', begun⟩ := Option.isSome_iff_exists.mp begun
      have apart : addr ≠ new := by
        rintro rfl
        obtain ⟨n, u, born, -⟩ := coherent.cells _ _ there
        rw [fresh] at born
        cases born
      refine still ?_
      simp only [next, creating, Option.bind_some, begun, Option.map_some]
      rw [(delivered _ _).cells]
      simp [apart]
  | receive rid =>
      refine still ?_
      simp only [next, Net.receive]
      repeat' split
      all_goals rfl
  | unlock rid entries =>
      refine still ?_
      simp only [next]
      split
      · exact congrFun (delivered _ _).cells addr
      · rfl
  | lock | patched | patchFailed | newstate | spawnFailed | releasestate =>
      exact still (congrFun (delivered _ _).cells addr)
  | _ =>
      refine still ?_
      simp only [next]
      repeat' split
      all_goals rfl

theorem spawn_of_unlockFrom {rid owner : Rid} {name : Name} {t : Table K V}
    (entries : List (Name × Option (Diff K V))) (p : Process Name Addr Rid (Diff K V))
    (spawns : Out.spawn rid name t ∈ (unlockFrom owner entries p).2) : False := by
  induction entries generalizing p with
  | nil => simp [unlockFrom] at spawns
  | cons entry rest ih =>
      obtain ⟨n, change⟩ := entry
      cases change with
      | none => exact ih _ spawns
      | some diff =>
          simp only [unlockFrom] at spawns
          split at spawns <;> simp at spawns

/-- Only `newstate` spawns a cell. -/
theorem spawn_of_body {p : Process Name Addr Rid (Diff K V)}
    {event : Event Name Addr Rid (Table K V) (Diff K V)} {rid : Rid} {name : Name} {t : Table K V}
    (spawns : Out.spawn rid name t ∈ (p.body event).2) : event = .newstate rid name t := by
  cases event with
  | newstate rid' name' t' =>
      simp only [body, Process.newstate] at spawns
      split at spawns
      · simp at spawns
      · simp only [List.mem_singleton, Out.spawn.injEq] at spawns
        obtain ⟨rfl, rfl, rfl⟩ := spawns
        rfl
  | unlock rid' entries => exact (spawn_of_unlockFrom entries _ spawns).elim
  | patched rid' =>
      simp only [body, Process.patched] at spawns
      split at spawns
      · simp at spawns
      · exact (spawn_of_unlockFrom _ _ spawns).elim
  | spawnFailed rid' => simp [body] at spawns
  | spawned | releasestate | lock | patchFailed =>
      simp only [body, Process.spawned, Process.releasestate, Process.lock,
        Process.patchFailed] at spawns
      split at spawns <;> simp at spawns

theorem creating_post (outs : List (Out Name Addr Rid (Table K V) (Diff K V)))
    (s : Net Name Addr Rid Wid K V) {rid : Rid} {name : Name} {t : Table K V}
    (creating : (outs.foldl post s).creating rid = some (name, t)) :
    s.creating rid = some (name, t) ∨ Out.spawn rid name t ∈ outs := by
  induction outs generalizing s with
  | nil => exact .inl creating
  | cons out rest ih =>
      rcases ih _ creating with before | later
      · cases out with
        | spawn rid' name' t' =>
            by_cases here : rid = rid'
            · subst here
              obtain ⟨rfl, rfl⟩ : name' = name ∧ t' = t := by simpa [post] using before
              exact .inr List.mem_cons_self
            · exact .inl (by simpa [post, here] using before)
        | _ => exact .inl before
      · exact .inr (List.mem_cons_of_mem _ later)

/-- A call inside `ltask.spawn` is that of a `newstate` with its name and table. -/
theorem creating_next {label : Label Name Addr Rid Wid K V} {rid : Rid} {name : Name}
    {t : Table K V} (creating : (s.next conf label).creating rid = some (name, t)) :
    s.creating rid = some (name, t) ∨ label = .newstate rid name t := by
  have sent : ∀ (before : Net Name Addr Rid Wid K V) event,
      (before.deliver event).creating rid = some (name, t) →
      before.creating rid = some (name, t) ∨ event = .newstate rid name t := by
    intro before event after
    rw [deliver_eq] at after
    rcases creating_post _ _ after with old | spawns
    · exact .inl old
    · exact .inr (spawn_of_body spawns)
  have quiet : ∀ (before : Net Name Addr Rid Wid K V) event, event ≠ .newstate rid name t →
      (before.deliver event).creating rid = some (name, t) →
      before.creating rid = some (name, t) :=
    fun before event other after => (sent before event after).resolve_right other
  cases label with
  | newstate rid' name' t' =>
      rcases sent s _ creating with old | same
      · exact .inl old
      · cases same
        exact .inr rfl
  | spawned rid' addr =>
      simp only [next] at creating
      split at creating
      · have before := quiet _ _ (by simp) creating
        by_cases here : rid = rid'
        · simp [here] at before
        · exact .inl (by simpa [here] using before)
      · exact .inl creating
  | spawnFailed rid' =>
      have before := quiet _ _ (by simp) creating
      by_cases here : rid = rid'
      · simp [here] at before
      · exact .inl (by simpa [here] using before)
  | unlock rid' entries =>
      simp only [next] at creating
      split at creating
      · exact .inl (quiet _ _ (by simp) creating)
      · exact .inl creating
  | lock | patched | patchFailed | releasestate =>
      have before := quiet _ _ (by simp) creating
      exact .inl before
  | receive rid' =>
      simp only [next, receive] at creating
      repeat' split at creating
      all_goals exact .inl creating
  | exit addr => exact .inl creating
  | _ =>
      simp only [next] at creating
      repeat' split at creating
      all_goals exact .inl creating

end Net

end Net

variable {Addr Rid Wid N : Type} [DecidableEq Addr] [DecidableEq Rid] [DecidableEq Wid]
  [DecidableEq N]

theorem user_injective {pid pid' : Bytes} (same : user pid = user pid') : pid = pid' :=
  List.append_cancel_left same

/-- `conf.persistence`, of which only the collection `user` is used. -/
def userConf : Persistence Bytes (Scalar N) (Scalar N) where
  stored name := (user []).isPrefixOf name && name ≠ user []
  -- `_id`
  idKey := .string [95, 105, 100]
  truthy x := x ≠ .scalar (.boolean false)

/-- A call of a handler that has returned. -/
structure Handling (Rid N : Type) where
  rid : Rid
  pid : Bytes
  data : Bytes
  /-- the player that the handler got -/
  self : LuaTable N

namespace Handling

variable (lib : Library N) (request : Scalar N → Option (Handler N))

/-- Nothing raises. -/
def Returned (h : Handling Rid N) : Prop :=
  (WindLtask.handle lib request h.data (some h.self)).2.isSome

/-- The player as the handler leaves it. -/
def left (h : Handling Rid N) : LuaTable N :=
  (WindLtask.handle lib request h.data (some h.self)).1.getD h.self

/-- The response, unless it is `nil` or an error. -/
def response (h : Handling Rid N) : Option Bytes :=
  (WindLtask.handle lib request h.data (some h.self)).2.join

end Handling

/-- The services and the requests of players. -/
structure Game (Addr Rid Wid N : Type) where
  net : Net Bytes Addr Rid Wid (Scalar N) (Scalar N)
  /-- the player and the data of a request -/
  asked : Rid → Option (Bytes × Bytes)
  /-- the requests that have been answered, the first one first -/
  handled : List (Handling Rid N)

/-- What happens next. -/
inductive Move (Addr Rid Wid N : Type) where
  /-- `player_login` asks for the state of its player -/
  | login (rid : Rid) (pid : Bytes) (t : LuaTable N)
  /-- `player_request(pid, data)` begins -/
  | request (rid : Rid) (wid : Wid) (pid data : Bytes)
  /-- `starre.query` has returned; the rest of the request runs -/
  | handle (rid : Rid)
  | other (label : Label Bytes Addr Rid Wid (Scalar N) (Scalar N))

/-- The labels that are neither the start nor the end of a use of a state. -/
def Label.between {Name Addr Rid Wid K V : Type} : Label Name Addr Rid Wid K V → Bool
  | .begin _ _ _ | .raise _ | .close _ _ | .newstate _ _ _ | .releasestate _ | .exit _ => false
  | _ => true

namespace Game

/-- The start: no player has logged in. -/
def init [Inhabited Wid] : Game Addr Rid Wid N where
  net := .init
  asked := fun _ => none
  handled := []

variable (lib : Library N) (request : Scalar N → Option (Handler N))

/-- How the rest of a request ends. -/
def ending (g : Game Addr Rid Wid N) (rid : Rid) :
    Option (Label Bytes Addr Rid Wid (Scalar N) (Scalar N)) :=
  match g.net.stage rid, g.asked rid with
  | .running q, some (_, data) =>
      if (WindLtask.handle lib request data q.newList.head?).2.isSome then
        some (.close rid (onFirst (fun p => (WindLtask.handle lib request data p).1) q.newList))
      else some (.raise rid)
  | _, _ => none

/-- The record of a request that is answered. -/
def record (g : Game Addr Rid Wid N) (rid : Rid) : Option (Handling Rid N) :=
  match g.net.stage rid, g.asked rid with
  | .running q, some (pid, data) =>
      if (WindLtask.handle lib request data q.newList.head?).2.isSome then
        q.newList.head?.map fun self => ⟨rid, pid, data, self⟩
      else none
  | _, _ => none

/-- The call of the handler with what `starre.query` has returned. -/
def call (g : Game Addr Rid Wid N) (rid : Rid) : Option (Handling Rid N) :=
  match g.net.stage rid, g.asked rid with
  | .running q, some (pid, data) => q.newList.head?.map fun self => ⟨rid, pid, data, self⟩
  | _, _ => none

/-- The step of the services that a move is. -/
def label (g : Game Addr Rid Wid N) :
    Move Addr Rid Wid N → Option (Label Bytes Addr Rid Wid (Scalar N) (Scalar N))
  | .login rid pid t => some (.newstate rid (user pid) t)
  | .request rid wid pid _ => some (.begin rid wid [user pid])
  | .handle rid => g.ending lib request rid
  | .other label => some label

/-- The effect of a move. -/
def next (g : Game Addr Rid Wid N) (move : Move Addr Rid Wid N) : Game Addr Rid Wid N where
  net := ((g.label lib request move).map (g.net.next userConf)).getD g.net
  asked :=
    match move with
    | .request rid _ pid data => Function.update g.asked rid (some (pid, data))
    | _ => g.asked
  handled :=
    match move with
    | .handle rid => g.handled ++ (g.record lib request rid).toList
    | _ => g.handled

/-- When a move can happen, beyond what the services ask of it. -/
def Meant (g : Game Addr Rid Wid N) : Move Addr Rid Wid N → Prop
  -- the gate makes one login at a time, and a second one of a player raises
  | .login _ pid _ => g.net.mgr.proc.state (user pid) = none ∧
      ∀ rid, g.net.mgr.proc.spawning rid ≠ some (user pid)
  | .request _ _ pid _ => (g.net.mgr.proc.state (user pid)).isSome
  | .handle _ => True
  | .other label => label.between

/-- What can happen. -/
def Enabled (g : Game Addr Rid Wid N) (move : Move Addr Rid Wid N) : Prop :=
  g.Meant move ∧ ∃ label, g.label lib request move = some label ∧ g.net.Enabled userConf label

/-- One step of the services with the requests of players. -/
def Step (g : Game Addr Rid Wid N) (move : Move Addr Rid Wid N) (g' : Game Addr Rid Wid N) :
    Prop :=
  g.Enabled lib request move ∧ g' = g.next lib request move

/-! ## What every step keeps -/

section Steps

variable {lib : Library N} {request : Scalar N → Option (Handler N)} {g g' : Game Addr Rid Wid N}

/-- Only a request begins a query, and its query has the name of its player. -/
theorem begins {move : Move Addr Rid Wid N} (meant : g.Meant move)
    {rid : Rid} {wid : Wid} {names : List Bytes}
    (makes : g.label lib request move = some (.begin rid wid names)) :
    ∃ pid data, move = .request rid wid pid data ∧ names = [user pid] := by
  cases move with
  | login rid' pid t => simp [Game.label] at makes
  | request rid' wid' pid data =>
      simp only [Game.label, Option.some.injEq, Label.begin.injEq] at makes
      obtain ⟨rfl, rfl, rfl⟩ := makes
      exact ⟨pid, data, rfl, rfl⟩
  | handle rid' =>
      simp only [Game.label, ending] at makes
      split at makes
      · split at makes <;> cases makes
      · cases makes
  | other label =>
      obtain rfl := Option.some.inj makes
      simp [Meant, Label.between] at meant

/-- Only a login asks for a new state, and no cell is told to quit. -/
theorem creates {move : Move Addr Rid Wid N} (meant : g.Meant move)
    {label : Label Bytes Addr Rid Wid (Scalar N) (Scalar N)}
    (makes : g.label lib request move = some label) :
    (∀ rid name t, label = .newstate rid name t →
      ∃ pid, move = .login rid pid t ∧ name = user pid) ∧ ∀ addr, label ≠ .exit addr := by
  cases move with
  | login rid pid t =>
      obtain rfl := Option.some.inj makes
      refine ⟨fun rid' name t' same => ?_, by simp⟩
      cases same
      exact ⟨pid, rfl, rfl⟩
  | request rid wid pid data =>
      obtain rfl := Option.some.inj makes
      exact ⟨by simp, by simp⟩
  | handle rid =>
      simp only [Game.label, ending] at makes
      split at makes
      · split at makes <;> cases makes <;> exact ⟨by simp, by simp⟩
      · cases makes
  | other label' =>
      obtain rfl := Option.some.inj makes
      refine ⟨?_, ?_⟩
      · rintro rid name t rfl
        simp [Meant, Label.between] at meant
      · rintro addr rfl
        simp [Meant, Label.between] at meant

/-- The step of the services that a move is. -/
theorem net_step {move : Move Addr Rid Wid N} (taken : Step lib request g move g') :
    ∃ label, g.label lib request move = some label ∧ Net.Step userConf g.net label g'.net := by
  obtain ⟨⟨-, label, makes, enabled⟩, rfl⟩ := taken
  exact ⟨label, makes, enabled, by simp [next, makes]⟩

/-- A move other than a request begins nothing. -/
theorem follows {move : Move Addr Rid Wid N} (taken : Step lib request g move g')
    (later : ∀ rid wid pid data, move ≠ .request rid wid pid data) (rid : Rid) :
    (g.net.stage rid).Follows (g'.net.stage rid) ∧ g'.asked = g.asked ∧
      g'.net.worker = g.net.worker := by
  obtain ⟨label, makes, enabled, net⟩ := net_step taken
  have apart : ∀ rid wid names, label ≠ .begin rid wid names := by
    intro rid' wid names same
    obtain ⟨pid, data, request, -⟩ := begins taken.1.1 (same ▸ makes)
    exact later rid' wid pid data request
  refine ⟨?_, ?_, ?_⟩
  · rw [net]
    exact Net.follows_next enabled apart rid
  · rw [taken.2]
    cases move with
    | request rid' wid pid data => exact absurd rfl (later rid' wid pid data)
    | _ => rfl
  · rw [net]
    exact Net.worker_next apart

/-- A coroutine that has begun goes on with its request and in its worker. -/
theorem goes_on {move : Move Addr Rid Wid N} (taken : Step lib request g move g') {rid : Rid}
    (began : (g.net.stage rid).names ≠ none) : (g.net.stage rid).Follows (g'.net.stage rid) ∧
      g'.asked rid = g.asked rid ∧ g'.net.worker rid = g.net.worker rid := by
  cases move with
  | request rid' wid pid data =>
      obtain ⟨⟨-, label, makes, enabled⟩, rfl⟩ := taken
      obtain rfl := Option.some.inj makes
      have apart : rid ≠ rid' := by
        rintro rfl
        cases stage : g.net.stage rid with
        | idle => exact began (by rw [stage]; rfl)
        | _ => simp [Net.Enabled, stage] at enabled
      simp only [next, Game.label, Option.map_some, Option.getD_some, Net.next, Net.moveTo,
        Function.update_of_ne apart]
      exact ⟨.refl _, trivial, trivial⟩
  | _ =>
      obtain ⟨follows, asked, worker⟩ := follows taken (by simp) rid
      exact ⟨follows, congrFun asked rid, congrFun worker rid⟩

/-- A query passes its close when its request is handled. -/
theorem past_iff {move : Move Addr Rid Wid N} (taken : Step lib request g move g') {rid : Rid}
    (other : move ≠ .handle rid) : (g'.net.stage rid).past ↔ (g.net.stage rid).past := by
  obtain ⟨label, makes, enabled, net⟩ := net_step taken
  rw [net]
  by_cases closes : ∃ rid' tables, label = .close rid' tables
  · obtain ⟨rid', tables, rfl⟩ := closes
    have apart : rid ≠ rid' := by
      rintro rfl
      cases move with
      | handle rid' =>
          simp only [Game.label, ending] at makes
          split at makes
          · split at makes
            · obtain ⟨rfl, -⟩ := by simpa using makes
              exact other rfl
            · cases makes
          · cases makes
      | other label =>
          obtain rfl := Option.some.inj makes
          simpa [Meant, Label.between] using taken.1.1
      | _ => cases makes
    simp only [Net.next]
    split
    · simp [Net.moveTo, apart]
    · rfl
  · exact (Net.keeps_next enabled fun rid' tables same => closes ⟨rid', tables, same⟩).past rid

/-- The services are serialized, and every query is that of a player who has a state. -/
structure Sane (g : Game Addr Rid Wid N) : Prop where
  coherent : g.net.Coherent
  settled : g.net.Settled
  recorded : g.net.Recorded
  asks : ∀ rid names, (g.net.stage rid).names = some names → ∃ pid data,
    g.asked rid = some (pid, data) ∧ names = [user pid] ∧
      (g.net.mgr.proc.state (user pid)).isSome
  handled : ∀ h ∈ g.handled, (g.net.mgr.proc.state (user h.pid)).isSome
  /-- nothing is released, so no cell quits -/
  cells : ∀ addr n t, g.net.born addr = some (n, t) → (g.net.cells addr).isSome

/-- What the call of a handler gets, and what the scope of its request then records. -/
structure Calling (g : Game Addr Rid Wid N) (rid : Rid)
    (q : Query Bytes Addr (Scalar N) (Scalar N)) (pid data : Bytes) (player : LuaTable N)
    (addr : Addr) : Prop where
  asked : g.asked rid = some (pid, data)
  named : q.names = [user pid]
  given : q.newList = [player]
  state : g.net.mgr.proc.state (user pid) = some addr
  born : ∃ t value, g.net.born addr = some (user pid, t) ∧
    replay t (g.net.log addr) = some value ∧ value.Same player
  entries : ∀ left, ∃ change, Net.entries q [left] = [⟨user pid, addr, player, left, change⟩]

namespace Sane

theorem init [Inhabited Wid] : Sane (init : Game Addr Rid Wid N) where
  coherent := .init
  settled := .init
  recorded := .init
  asks := by simp [Game.init, Net.init, Stage.names]
  handled := by simp [Game.init]
  cells := by simp [Game.init, Net.init]

theorem serialized (sane : Sane g) : g.net.Serialized :=
  sane.settled.serialized sane.coherent sane.recorded

theorem calling (sane : Sane g) {rid : Rid} {q : Query Bytes Addr (Scalar N) (Scalar N)}
    (stage : g.net.stage rid = .running q) :
    ∃ pid data self addr, Calling g rid q pid data self addr := by
  obtain ⟨pid, data, asked, names, state⟩ := sane.asks rid q.names (by rw [stage]; rfl)
  obtain ⟨length, fetched⟩ := sane.serialized.running rid q stage
  obtain ⟨⟨shape, held⟩, awaits, -, -⟩ := sane.coherent.at_running stage
  obtain ⟨full, addrs, -⟩ := sane.settled.full sane.coherent shape held awaits
  obtain ⟨addr, state⟩ := Option.isSome_iff_exists.mp state
  rw [names, List.length_singleton] at length full
  obtain ⟨self, newList⟩ := List.length_eq_one_iff.mp length
  obtain ⟨old, oldList⟩ := List.length_eq_one_iff.mp full
  rw [names, List.map_singleton, state] at addrs
  obtain ⟨addr', t, value, atAddr, born, reached, same⟩ :=
    fetched 0 (user pid) self (by rw [names]; rfl) (by rw [newList]; rfl)
  obtain rfl : addr' = addr := by simpa [addrs] using atAddr.symm
  exact ⟨pid, data, self, addr', asked, names, newList, state, ⟨t, value, born, reached, same⟩,
    fun left => ⟨ltdiff old left, by simp [Net.entries, names, addrs, newList, oldList]⟩⟩

/-- The services make fixed steps only. -/
theorem fixed (sane : Sane g) {move : Move Addr Rid Wid N} (enabled : g.Enabled lib request move)
    {label : Label Bytes Addr Rid Wid (Scalar N) (Scalar N)}
    (makes : g.label lib request move = some label) : g.net.Fixed label := by
  obtain ⟨meant, label', makes', enabled⟩ := enabled
  obtain rfl : label' = label := Option.some.inj (makes'.symm.trans makes)
  cases move with
  | login rid pid t =>
      obtain rfl := Option.some.inj makes
      exact meant
  | request rid wid pid data =>
      obtain rfl := Option.some.inj makes
      exact List.nodup_singleton _
  | handle rid =>
      simp only [Game.label, ending] at makes
      split at makes
      · split at makes <;> cases makes <;> trivial
      · cases makes
  | other label =>
      obtain rfl := Option.some.inj makes
      cases label with
      | lock rid names =>
          cases stage : g.net.stage rid with
          | asking asked =>
              obtain rfl : asked = names := by simpa [Net.Enabled, stage] using enabled
              obtain ⟨pid, data, -, rfl, state⟩ := sane.asks rid asked (by rw [stage]; rfl)
              intro n member
              obtain rfl := List.mem_singleton.mp member
              exact state
          | _ => simp [Net.Enabled, stage] at enabled
      | begin | newstate | releasestate => simp [Meant, Label.between] at meant
      | _ => trivial

/-- A state stays. -/
theorem stays (sane : Sane g) {move : Move Addr Rid Wid N} (taken : Step lib request g move g')
    {n : Bytes} (there : (g.net.mgr.proc.state n).isSome) :
    (g'.net.mgr.proc.state n).isSome := by
  obtain ⟨label, makes, net⟩ := net_step taken
  obtain ⟨addr, state⟩ := Option.isSome_iff_exists.mp there
  have later := sane.settled.state_grows sane.coherent (sane.fixed taken.1 makes) net.1 state
  rw [← net.2] at later
  simp [later]

theorem step (sane : Sane g) {move : Move Addr Rid Wid N} (taken : Step lib request g move g') :
    Sane g' := by
  obtain ⟨label, makes, net⟩ := net_step taken
  have fixed := sane.fixed taken.1 makes
  have settled := sane.settled.step sane.coherent fixed net
  have coherent := sane.coherent.step (sane.settled.admitted sane.coherent fixed) net
  refine ⟨coherent, settled, sane.recorded.step sane.settled sane.coherent net, ?_, ?_, ?_⟩
  · intro other names stands
    have earlier : (∀ rid wid pid data, move ≠ .request rid wid pid data) → ∃ pid data,
        g'.asked other = some (pid, data) ∧ names = [user pid] ∧
          (g'.net.mgr.proc.state (user pid)).isSome := by
      intro later
      obtain ⟨same, asked, -⟩ := follows taken later other
      obtain ⟨pid, data, was, named, state⟩ := sane.asks other names (same.names ▸ stands)
      exact ⟨pid, data, asked ▸ was, named, sane.stays taken state⟩
    cases move with
    | request rid wid pid data =>
        obtain ⟨⟨state, -⟩, rfl⟩ := taken
        simp only [next, Game.label, Option.map_some, Option.getD_some, Net.next,
          Net.moveTo] at stands ⊢
        by_cases here : other = rid
        · subst here
          obtain rfl : [user pid] = names := by simpa [Stage.names] using stands
          exact ⟨pid, data, by simp, rfl, state⟩
        · simp only [Function.update_of_ne here] at stands ⊢
          exact sane.asks other names stands
    | _ => exact earlier (by simp)
  · intro h member
    rw [taken.2] at member
    cases move with
    | handle rid =>
        rcases List.mem_append.mp member with old | new
        · exact sane.stays taken (sane.handled h old)
        · simp only [record] at new
          split at new
          · next q pid data stage asked =>
            split at new
            · obtain ⟨self, -, rfl⟩ := by simpa using new
              obtain ⟨pid', data', asked', -, state⟩ :=
                sane.asks rid q.names (by rw [stage]; rfl)
              obtain ⟨rfl, rfl⟩ := by simpa using asked.symm.trans asked'
              exact sane.stays taken state
            · simp at new
          · simp at new
    | _ => exact sane.stays taken (sane.handled h member)
  · intro addr n t born
    rw [net.2] at born ⊢
    rcases Net.born_cases net.1 born with old | ⟨rid, u, cell, -, -, -, -, -, there⟩
    · obtain ⟨cell, there⟩ := Option.isSome_iff_exists.mp (sane.cells addr n t old)
      obtain ⟨cell', later, -⟩ :=
        sane.coherent.cells_grow net.1 (creates taken.1.1 makes).2 there
      simp [later]
    · simp [there]

end Sane

/-- The rest of a request runs. -/
structure Handles (lib : Library N) (request : Scalar N → Option (Handler N))
    (g g' : Game Addr Rid Wid N) (rid : Rid) (q : Query Bytes Addr (Scalar N) (Scalar N))
    (h : Handling Rid N) (addr : Addr) : Prop where
  stage : g.net.stage rid = .running q
  calling : Calling g rid q h.pid h.data h.self addr
  own : h.rid = rid
  call : g.call rid = some h
  ends : (h.Returned lib request ∧ g.record lib request rid = some h ∧
      (∃ q', g'.net.stage rid = .closed q') ∧ ∃ change, g'.net.closed =
        g.net.closed ++ [⟨rid, [⟨user h.pid, addr, h.self, h.left lib request, change⟩]⟩]) ∨
    (¬ h.Returned lib request ∧ g.record lib request rid = none ∧
      g'.net.stage rid = .raised q.names ∧ g'.net.closed = g.net.closed)

/-- A request is handled while it has the state of its player locked. -/
theorem Handles.covers {rid : Rid} {q : Query Bytes Addr (Scalar N) (Scalar N)}
    {h : Handling Rid N} {addr : Addr} (sane : Sane g)
    (handles : Handles lib request g g' rid q h addr) :
    g.net.mgr.Covers rid (user h.pid) := by
  have held := (sane.coherent.at_running handles.stage).1.2
  rw [handles.calling.named] at held
  exact Net.covers_of_held held _ (List.mem_singleton_self _)

theorem Sane.handles (sane : Sane g) {rid : Rid} (taken : Step lib request g (.handle rid) g') :
    ∃ q h addr, Handles lib request g g' rid q h addr := by
  obtain ⟨label, makes, -, net⟩ := net_step taken
  have ends : g.ending lib request rid = some label := makes
  cases stage : g.net.stage rid with
  | running q =>
      obtain ⟨pid, data, self, addr, calling⟩ := sane.calling stage
      simp only [ending, stage, calling.asked, calling.given, List.head?_cons] at ends
      refine ⟨q, ⟨rid, pid, data, self⟩, addr, stage, calling, rfl,
        by simp [Game.call, stage, calling.asked, calling.given], ?_⟩
      by_cases returned : (WindLtask.handle lib request data (some self)).2.isSome
      · have left : (onFirst (fun p => (WindLtask.handle lib request data p).1) q.newList).1 =
            [(WindLtask.handle lib request data (some self)).1.getD self] := by
          rw [calling.given]
          rfl
        rw [if_pos returned, left, Option.some.injEq] at ends
        obtain ⟨change, entries⟩ := calling.entries
          ((WindLtask.handle lib request data (some self)).1.getD self)
        refine .inl ⟨returned, by simp [record, stage, calling.asked, calling.given, returned],
          ?_, change, ?_⟩
        · rw [net, ← ends]
          simp [Net.next, stage, Net.moveTo]
        · rw [net, ← ends]
          simp only [Net.next, stage, entries]
          rfl
      · rw [if_neg returned, Option.some.injEq] at ends
        refine .inr ⟨returned, by simp [record, stage, calling.asked, calling.given, returned],
          ?_, ?_⟩ <;>
        · rw [net, ← ends]
          simp [Net.next, stage, Net.moveTo]
  | _ => simp [ending, stage] at ends

/-- A request is answered: it goes on record, and its scope ends. -/
structure Answers (lib : Library N) (request : Scalar N → Option (Handler N))
    (g g' : Game Addr Rid Wid N) (rid : Rid) (h : Handling Rid N) (addr : Addr) : Prop where
  record : g.record lib request rid = some h
  own : h.rid = rid
  calling : ∃ q, g.net.stage rid = .running q ∧ Calling g rid q h.pid h.data h.self addr
  returned : (WindLtask.handle lib request h.data (some h.self)).2.isSome
  handled : g'.handled = g.handled ++ [h]
  closed : ∃ change, g'.net.closed = g.net.closed ++ [⟨rid, [⟨user h.pid, addr, h.self,
    (WindLtask.handle lib request h.data (some h.self)).1.getD h.self, change⟩]⟩]

/-- Queries close where requests are answered, and nowhere else. -/
theorem Sane.answers (sane : Sane g) {move : Move Addr Rid Wid N}
    (taken : Step lib request g move g') :
    (g'.net.closed = g.net.closed ∧ g'.handled = g.handled ∧
      ∀ rid, move = .handle rid → g.record lib request rid = none) ∨
      ∃ rid h addr, move = .handle rid ∧ Answers lib request g g' rid h addr := by
  obtain ⟨label, makes, enabled, net⟩ := net_step taken
  have open_ : (∀ rid tables, label ≠ .close rid tables) → g'.net.closed = g.net.closed :=
    fun other => net ▸ (Net.keeps_next enabled other).closed
  cases move with
  | login rid pid t =>
      obtain rfl := Option.some.inj makes
      exact .inl ⟨open_ (by simp), by rw [taken.2]; rfl, by simp⟩
  | request rid wid pid data =>
      obtain rfl := Option.some.inj makes
      exact .inl ⟨open_ (by simp), by rw [taken.2]; rfl, by simp⟩
  | other label' =>
      obtain rfl := Option.some.inj makes
      refine .inl ⟨open_ ?_, by rw [taken.2]; rfl, by simp⟩
      rintro rid tables rfl
      simpa [Meant, Label.between] using taken.1.1
  | handle rid =>
      obtain ⟨q, h, addr, handles⟩ := sane.handles taken
      have recorded : g'.handled = g.handled ++ (g.record lib request rid).toList := by
        rw [taken.2]
        rfl
      rcases handles.ends with ⟨returned, record, -, closed⟩ | ⟨-, record, -, closed⟩
      · exact .inr ⟨rid, h, addr, rfl, record, handles.own, ⟨q, handles.stage, handles.calling⟩,
          returned, by rw [recorded, record]; rfl, closed⟩
      · refine .inl ⟨closed, by rw [recorded, record]; simp, fun other same => ?_⟩
        cases same
        exact record

end Steps

end Game

end WindLtask.System
