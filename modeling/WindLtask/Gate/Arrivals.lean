import WindLtask.Gate.Incarnations

/-!
# Frames and their players

The network service with the frames that its connections have sent, in the order
in which `on_data` has cut them out of the data, and with the connection that has
logged in as a player.  A login returns once for each player, so that all frames
for a player are from one connection.
-/

set_option linter.unusedSectionVars false

namespace WindLtask.Gate

variable {Fd Addr : Type} [DecidableEq Fd]

/-- The label neither calls a worker for a frame nor takes a response. -/
def Label.apart : Label Fd Addr → Bool
  | .start | .answer _ _ => false
  | _ => true

namespace Server

/-- Coroutines are forked after the others, and messages sent that answer no request. -/
structure Grows (s t : Server Fd Addr) : Prop where
  forked : s.forked <+: t.forked
  sent : ∃ messages, t.sent = s.sent ++ messages ∧ ∀ m ∈ messages, m.asked = none

theorem Grows.of_eq {s t : Server Fd Addr} (forked : t.forked = s.forked) (sent : t.sent = s.sent) :
    Grows s t :=
  ⟨forked ▸ List.prefix_rfl, [], by simp [sent], by simp⟩

theorem grows_onData (s : Server Fd Addr) (fd : Fd) (message : Bytes) (fds : List Fd) :
    Grows s (s.onData fd message fds) := by
  cases entry : s.connection fd with
  | none =>
      exact .of_eq (by simp [onData, Gate.onData, entry]) (by simp [onData, Gate.onData, entry])
  | some c =>
      have outcome := s.onData_handled fd message fds entry
      generalize s.onData fd message fds = t at outcome ⊢
      cases outcome with
      | welcome => exact ⟨List.prefix_rfl, [⟨fd, authenticated, s.sockets fd, none⟩], rfl, by simp⟩
      | shutdown => exact .of_eq rfl rfl
      | login pid => exact .of_eq rfl rfl
      | requests last packs => exact ⟨List.prefix_append _ _, [], by simp, by simp⟩

theorem grows_next (s : Server Fd Addr) {label : Label Fd Addr} (apart : label.apart) :
    Grows s (s.next label) := by
  cases label with
  | start => cases apart
  | answer job resp => cases apart
  | received message =>
      simp only [next]
      split
      · exact s.grows_onData _ _ _
      · exact .of_eq rfl rfl
  | recvFailed closed =>
      simp only [next]
      repeat' split
      all_goals exact .of_eq rfl rfl
  | loggedIn answers =>
      simp only [next]
      repeat' split
      · next fd pid fds _ _ =>
        exact ⟨List.prefix_rfl, [⟨fd, loginSuccess, s.sockets fd, none⟩], rfl, by simp⟩
      all_goals exact .of_eq rfl rfl
  | wait events => cases events <;> exact .of_eq rfl rfl
  | eread | accepted | acceptFailed =>
      simp only [next]
      split <;> exact .of_eq rfl rfl
  | slept => exact .of_eq rfl rfl

end Server

/-- The network service with what has arrived so far. -/
structure Arrivals (Fd Addr : Type) where
  server : Server Fd Addr
  /-- the frames, the first one first -/
  frames : List (Job Fd)
  /-- the descriptor on which a connection was accepted -/
  place : Nat → Option Fd
  /-- the connection whose login as the player has returned -/
  owner : Bytes → Option Nat

namespace Arrivals

/-- The service once `S.start` has forked the loop. -/
def init : Arrivals Fd Addr where
  server := .init
  frames := []
  place := fun _ => none
  owner := fun _ => none

/-- The effect of a label. -/
def next (a : Arrivals Fd Addr) (label : Label Fd Addr) : Arrivals Fd Addr where
  server := a.server.next label
  frames := a.frames ++ (a.server.next label).forked.drop a.server.forked.length
  place :=
    match label with
    | .accepted fd _ => Function.update a.place a.server.accepts (some fd)
    | _ => a.place
  owner :=
    match label, a.server.loop with
    | .loggedIn answers, .login fd pid _ =>
        if playerLogin a.server.players pid answers then
          Function.update a.owner pid ((a.server.connection fd).map Conn.accept)
        else a.owner
    | _, _ => a.owner

/-- Which connection stands behind a player, and which player behind a frame. -/
structure Owned (a : Arrivals Fd Addr) : Prop where
  placed : ∀ fd c, a.server.connection fd = some c → a.place c.accept = some fd
  made : ∀ n fd, a.place n = some fd → n < a.server.accepts
  known : ∀ pid n, a.owner pid = some n → pid ∈ a.server.players ∧ n < a.server.accepts
  single : ∀ pid pid' n, a.owner pid = some n → a.owner pid' = some n → pid = pid'
  newcomer : ∀ fd c, a.server.connection fd = some c → c.login = false →
    ∀ pid, a.owner pid ≠ some c.accept
  login : ∀ fd pid fds, a.server.loop = .login fd pid fds → ∃ c,
    a.server.connection fd = some c ∧ c.login = true ∧ c.pid = some pid ∧
      ∀ pid', a.owner pid' ≠ some c.accept
  /-- the player of a connection has logged in there, unless that login is still under way -/
  served : ∀ fd c, a.server.connection fd = some c → c.login = true →
    (∃ pid, c.pid = some pid ∧ a.owner pid = some c.accept) ∨ a.server.loop = .raised ∨
      ∃ pid fds, a.server.loop = .login fd pid fds
  frames : ∀ job ∈ a.frames, a.place job.accept = some job.fd ∧
    ∃ pid, job.pid = some pid ∧ a.owner pid = some job.accept
  /-- the coroutines that have not run yet are those of the last frames -/
  queue : a.server.forked <:+ a.frames

/-- Nothing is forked, accepted or logged in. -/
theorem next_quiet {a : Arrivals Fd Addr} {label : Label Fd Addr} {t : Server Fd Addr}
    (next : a.server.next label = t) (forked : t.forked.length ≤ a.server.forked.length)
    (noAccept : ∀ fd addr, label ≠ .accepted fd addr)
    (noLogin : ∀ answers, label ≠ .loggedIn answers) : a.next label = { a with server := t } := by
  subst next
  have none_new := List.drop_of_length_le forked
  cases label with
  | accepted fd addr => exact absurd rfl (noAccept fd addr)
  | loggedIn answers => exact absurd rfl (noLogin answers)
  | _ => simp [Arrivals.next, none_new]

namespace Owned

variable {a : Arrivals Fd Addr}

theorem start : (init : Arrivals Fd Addr).Owned where
  placed := by simp [init, Server.init]
  made := by simp [init]
  known := by simp [init]
  single := by simp [init]
  newcomer := by simp [init]
  login := by simp [init, Server.init]
  served := by simp [init, Server.init]
  frames := by simp [init]
  queue := List.suffix_rfl

/-- Two frames of one connection have one player. -/
theorem steady (owned : a.Owned) {job job' : Job Fd} (first : job ∈ a.frames)
    (second : job' ∈ a.frames) (same : job.accept = job'.accept) : job.pid = job'.pid := by
  obtain ⟨-, pid, named, owner⟩ := owned.frames job first
  obtain ⟨-, pid', named', owner'⟩ := owned.frames job' second
  rw [same] at owner
  rw [named, named', owned.single pid pid' _ owner owner']

/-- Two frames for one player are from one connection. -/
theorem own (owned : a.Owned) {job job' : Job Fd} (first : job ∈ a.frames)
    (second : job' ∈ a.frames) (same : job.pid = job'.pid) : job.accept = job'.accept := by
  obtain ⟨-, pid, named, owner⟩ := owned.frames job first
  obtain ⟨-, pid', named', owner'⟩ := owned.frames job' second
  obtain rfl : pid = pid' := by simpa [named, named'] using same
  exact Option.some.inj (owner.symm.trans owner')

/-- The loop goes on without a login, or stays where it is. -/
theorem carry (owned : a.Owned) (t : Server Fd Addr)
    (connection : t.connection = a.server.connection) (accepts : t.accepts = a.server.accepts)
    (players : t.players = a.server.players) (forked : t.forked <:+ a.server.forked)
    (loop : t.loop = a.server.loop ∨ a.server.loop.loggingIn = false ∧ t.loop.loggingIn = false ∧
      a.server.loop ≠ .raised) :
    { a with server := t }.Owned where
  placed := by rw [connection]; exact owned.placed
  made := by rw [accepts]; exact owned.made
  known := by rw [players, accepts]; exact owned.known
  single := owned.single
  newcomer := by rw [connection]; exact owned.newcomer
  login fd pid fds waits := by
    rw [connection]
    rcases loop with same | ⟨-, after, -⟩
    · exact owned.login fd pid fds (same ▸ waits)
    · rw [show t.loop = .login fd pid fds from waits] at after
      cases after
  served fd c entry login := by
    rw [connection] at entry
    rcases owned.served fd c entry login with has | raised | ⟨pid, fds, waits⟩
    · exact .inl has
    · rcases loop with same | ⟨-, -, alive⟩
      · exact .inr (.inl (same.trans raised))
      · exact absurd raised alive
    · rcases loop with same | ⟨before, -, -⟩
      · exact .inr (.inr ⟨pid, fds, same.trans waits⟩)
      · rw [waits] at before
        cases before
  frames := owned.frames
  queue := forked.trans owned.queue

/-- An entry changes in what no frame and no player depends on. -/
theorem reconnect (owned : a.Owned) {fd : Fd} {c : Conn Addr} (c' : Conn Addr)
    (entry : a.server.connection fd = some c) (accept : c'.accept = c.accept)
    (login : c'.login = c.login) (pid : c'.pid = c.pid) :
    { a with server := { a.server with
      connection := Function.update a.server.connection fd (some c') } }.Owned := by
  have was : ∀ {fd' d}, Function.update a.server.connection fd (some c') fd' = some d →
      ∃ d', a.server.connection fd' = some d' ∧ d.accept = d'.accept ∧ d.login = d'.login ∧
        d.pid = d'.pid := by
    intro fd' d now
    by_cases here : fd' = fd
    · subst here
      obtain rfl : c' = d := by simpa using now
      exact ⟨c, entry, accept, login, pid⟩
    · exact ⟨d, by simpa [here] using now, rfl, rfl, rfl⟩
  refine ⟨fun fd' d now => ?_, owned.made, owned.known, owned.single, fun fd' d now fresh => ?_,
    fun fd' pid' fds waits => ?_, fun fd' d now logged => ?_, owned.frames, owned.queue⟩
  · obtain ⟨d', before, same, -, -⟩ := was now
    rw [same]
    exact owned.placed fd' d' before
  · obtain ⟨d', before, same, flag, -⟩ := was now
    rw [same]
    exact owned.newcomer fd' d' before (flag.symm.trans fresh)
  · obtain ⟨d, before, logged, named, free⟩ := owned.login fd' pid' fds waits
    by_cases here : fd' = fd
    · subst here
      obtain rfl : c = d := Option.some.inj (entry.symm.trans before)
      exact ⟨c', by simp, login.trans logged, pid.trans named, by rw [accept]; exact free⟩
    · exact ⟨d, by simpa [here] using before, logged, named, free⟩
  · obtain ⟨d', before, same, flag, named⟩ := was now
    rw [same, named]
    exact owned.served fd' d' before (flag.symm.trans logged)

/-- `shutdown(fd)` -/
theorem shutdown (owned : a.Owned) (fd : Fd) (calm : a.server.loop.loggingIn = false) :
    { a with server := { a.server with
      connection := Function.update a.server.connection fd none }.close fd }.Owned := by
  have was : ∀ {fd' c}, Function.update a.server.connection fd none fd' = some c →
      a.server.connection fd' = some c := by
    intro fd' c now
    by_cases here : fd' = fd
    · simp [here] at now
    · simpa [here] using now
  refine ⟨fun fd' c now => owned.placed fd' c (was now), owned.made, owned.known, owned.single,
    fun fd' c now => owned.newcomer fd' c (was now), fun fd' pid fds waits => ?_,
    fun fd' c now => owned.served fd' c (was now), owned.frames, owned.queue⟩
  rw [show a.server.loop = .login fd' pid fds from waits] at calm
  cases calm

/-- A new connection gets a number that none has had. -/
theorem accepted (owned : a.Owned) (fd : Fd) (addr : Addr)
    (calm : a.server.loop.loggingIn = false) :
    { a with
      server := { a.server with
        connection := onAccept a.server.connection fd addr a.server.accepts
        sockets := Function.update a.server.sockets fd (some a.server.accepts)
        accepts := a.server.accepts + 1 }
      place := Function.update a.place a.server.accepts (some fd) }.Owned := by
  have earlier : ∀ {n fd'}, a.place n = some fd' →
      Function.update a.place a.server.accepts (some fd) n = some fd' := by
    intro n fd' there
    have apart : n ≠ a.server.accepts := Nat.ne_of_lt (owned.made n fd' there)
    simpa [apart] using there
  have was : ∀ {fd' c}, onAccept a.server.connection fd addr a.server.accepts fd' = some c →
      (fd' = fd ∧ c = ⟨addr, false, false, none, [], a.server.accepts⟩) ∨
        a.server.connection fd' = some c := by
    intro fd' c now
    by_cases here : fd' = fd
    · exact .inl ⟨here, by simpa [onAccept, here] using now.symm⟩
    · exact .inr (by simpa [onAccept, here] using now)
  refine ⟨fun fd' c now => ?_, fun n fd' there => ?_, fun pid n has => ?_, owned.single,
    fun fd' c now fresh pid has => ?_, fun fd' pid fds waits => ?_, fun fd' c now logged => ?_,
    fun job member => ?_, owned.queue⟩
  · rcases was now with ⟨rfl, rfl⟩ | before
    · simp
    · exact earlier (owned.placed fd' c before)
  · by_cases here : n = a.server.accepts
    · exact here ▸ Nat.lt_succ_self _
    · exact Nat.lt_succ_of_lt (owned.made n fd' (by simpa [here] using there))
  · obtain ⟨player, bound⟩ := owned.known pid n has
    exact ⟨player, Nat.lt_succ_of_lt bound⟩
  · rcases was now with ⟨rfl, rfl⟩ | before
    · exact absurd (owned.known pid _ has).2 (Nat.lt_irrefl _)
    · exact owned.newcomer fd' c before fresh pid has
  · rw [show a.server.loop = .login fd' pid fds from waits] at calm
    cases calm
  · rcases was now with ⟨rfl, rfl⟩ | before
    · cases logged
    · exact owned.served fd' c before logged
  · obtain ⟨place, player⟩ := owned.frames job member
    exact ⟨earlier place, player⟩

/-- The line with the player id starts the login. -/
theorem enter (owned : a.Owned) {fd : Fd} {c : Conn Addr}
    (entry : a.server.connection fd = some c) (fresh : c.login = false) (pid : Bytes)
    (fds : List Fd) (calm : a.server.loop.loggingIn = false) (alive : a.server.loop ≠ .raised) :
    { a with server := { a.server with
      connection := Function.update a.server.connection fd
        (some { c with pid := some pid, login := true })
      loop := .login fd pid fds } }.Owned := by
  have was : ∀ {fd' d}, Function.update a.server.connection fd
      (some { c with pid := some pid, login := true }) fd' = some d →
      (fd' = fd ∧ d = { c with pid := some pid, login := true }) ∨
        a.server.connection fd' = some d := by
    intro fd' d now
    by_cases here : fd' = fd
    · exact .inl ⟨here, by simpa [here] using now.symm⟩
    · exact .inr (by simpa [here] using now)
  refine ⟨fun fd' d now => ?_, owned.made, owned.known, owned.single,
    fun fd' d now newcomer => ?_, fun fd' pid' fds' waits => ?_, fun fd' d now logged => ?_,
    owned.frames, owned.queue⟩
  · rcases was now with ⟨rfl, rfl⟩ | before
    · exact owned.placed fd' c entry
    · exact owned.placed fd' d before
  · rcases was now with ⟨rfl, rfl⟩ | before
    · cases newcomer
    · exact owned.newcomer fd' d before newcomer
  · obtain ⟨rfl, rfl, rfl⟩ := Loop.login.inj waits
    exact ⟨{ c with pid := some pid, login := true }, by simp, rfl, rfl,
      owned.newcomer fd c entry fresh⟩
  · rcases was now with ⟨rfl, rfl⟩ | before
    · exact .inr (.inr ⟨pid, fds, rfl⟩)
    · rcases owned.served fd' d before logged with has | raised | ⟨pid', fds', waits⟩
      · exact .inl has
      · exact absurd raised alive
      · rw [waits] at calm
        cases calm

/-- `player_login` returns. -/
theorem logged (owned : a.Owned) {fd : Fd} {pid : Bytes} {fds : List Fd}
    (waits : a.server.loop = .login fd pid fds) {answers : Answers}
    (returned : playerLogin a.server.players pid answers) (sent : List (Sent Fd)) :
    { a with
      server := { a.server with
        sent := sent
        players := pid :: a.server.players
        loop := .handling fds }
      owner := Function.update a.owner pid
        ((a.server.connection fd).map Conn.accept) }.Owned := by
  obtain ⟨c, entry, -, named, free⟩ := owned.login fd pid fds waits
  have fresh : pid ∉ a.server.players := by
    unfold playerLogin at returned
    split at returned
    · split at returned <;> simp_all
    · cases returned
  have vacant : a.owner pid = none := by
    by_contra has
    obtain ⟨n, has⟩ := Option.ne_none_iff_exists'.mp has
    exact fresh (owned.known pid n has).1
  rw [entry, Option.map_some]
  have earlier : ∀ {pid' n}, a.owner pid' = some n →
      Function.update a.owner pid (some c.accept) pid' = some n := by
    intro pid' n has
    have apart : pid' ≠ pid := by
      rintro rfl
      rw [vacant] at has
      cases has
    simpa [apart] using has
  have was : ∀ {pid' n}, Function.update a.owner pid (some c.accept) pid' = some n →
      (pid' = pid ∧ n = c.accept) ∨ a.owner pid' = some n := by
    intro pid' n now
    by_cases here : pid' = pid
    · exact .inl ⟨here, by simpa [here] using now.symm⟩
    · exact .inr (by simpa [here] using now)
  refine ⟨owned.placed, owned.made, fun pid' n now => ?_, fun pid₁ pid₂ n first second => ?_,
    fun fd' d now newcomer pid' has => ?_, by simp, fun fd' d now logged => ?_,
    fun job member => ?_, owned.queue⟩
  · rcases was now with ⟨rfl, rfl⟩ | before
    · exact ⟨List.mem_cons_self, owned.made _ fd (owned.placed fd c entry)⟩
    · obtain ⟨player, bound⟩ := owned.known pid' n before
      exact ⟨List.mem_cons_of_mem _ player, bound⟩
  · rcases was first with ⟨rfl, rfl⟩ | old₁
    · rcases was second with ⟨rfl, -⟩ | old₂
      · rfl
      · exact absurd old₂ (free pid₂)
    · rcases was second with ⟨rfl, rfl⟩ | old₂
      · exact absurd old₁ (free pid₁)
      · exact owned.single pid₁ pid₂ n old₁ old₂
  · rcases was has with ⟨rfl, same⟩ | before
    · -- the number is that of the connection that logs in, which is no newcomer
      have places := (owned.placed fd' d now).symm.trans (same ▸ owned.placed fd c entry)
      obtain rfl : fd' = fd := Option.some.inj places
      obtain rfl : c = d := Option.some.inj (entry.symm.trans now)
      obtain ⟨c', entry', login, -⟩ := owned.login fd' _ fds waits
      obtain rfl : c = c' := Option.some.inj (entry.symm.trans entry')
      rw [newcomer] at login
      cases login
    · exact owned.newcomer fd' d now newcomer pid' before
  · rcases owned.served fd' d now logged with ⟨pid', has, own⟩ | raised | ⟨pid', fds', other⟩
    · exact .inl ⟨pid', has, earlier own⟩
    · rw [waits] at raised
      cases raised
    · rw [waits] at other
      obtain ⟨rfl, rfl, rfl⟩ := Loop.login.inj other
      obtain rfl : c = d := Option.some.inj (entry.symm.trans now)
      exact .inl ⟨pid, named, by simp⟩
  · obtain ⟨place, pid', has, own⟩ := owned.frames job member
    exact ⟨place, pid', has, earlier own⟩

/-- The frames in a chunk of data are those of the player who has logged in there. -/
theorem fork (owned : a.Owned) {fd : Fd} {c : Conn Addr}
    (entry : a.server.connection fd = some c) (login : c.login = true)
    (calm : a.server.loop.loggingIn = false) (alive : a.server.loop ≠ .raised)
    (packs : List Bytes) :
    { a with
      server := { a.server with
        forked := a.server.forked ++ packs.map fun pack => (⟨fd, c.pid, pack, c.accept⟩ : Job Fd) }
      frames := a.frames ++
        packs.map fun pack => (⟨fd, c.pid, pack, c.accept⟩ : Job Fd) }.Owned := by
  refine ⟨owned.placed, owned.made, owned.known, owned.single, owned.newcomer, owned.login,
    owned.served, fun job member => ?_, ?_⟩
  · rcases List.mem_append.mp member with old | new
    · exact owned.frames job old
    · obtain ⟨pack, -, rfl⟩ := List.mem_map.mp new
      rcases owned.served fd c entry login with has | raised | ⟨pid, fds, waits⟩
      · exact ⟨owned.placed fd c entry, has⟩
      · exact absurd raised alive
      · rw [waits] at calm
        cases calm
  · obtain ⟨started, whole⟩ := owned.queue
    exact ⟨started, by simp [← whole]⟩

/-- An error ends the loop. -/
theorem raised (owned : a.Owned) : { a with server := { a.server with loop := .raised } }.Owned :=
  ⟨owned.placed, owned.made, owned.known, owned.single, owned.newcomer, by simp,
    fun _ _ _ _ => .inr (.inl rfl), owned.frames, owned.queue⟩

/-- A chunk of data. -/
theorem received (owned : a.Owned) {fd : Fd} {message : Bytes} {fds : List Fd}
    (next : a.server.next (.received message) = a.server.onData fd message fds)
    (calm : a.server.loop.loggingIn = false) (alive : a.server.loop ≠ .raised) :
    (a.next (.received message)).Owned := by
  have quiet : (a.server.onData fd message fds).forked = a.server.forked →
      a.next (.received message) = { a with server := a.server.onData fd message fds } := by
    intro same
    exact next_quiet next (Nat.le_of_eq (congrArg List.length same)) (by simp) (by simp)
  cases entry : a.server.connection fd with
  | none =>
      have data : a.server.onData fd message fds = { a.server with loop := .raised } := by
        simp [Server.onData, Gate.onData, entry]
      rw [quiet (by rw [data]), data]
      exact owned.raised
  | some c =>
      cases authed : c.authed with
      | false =>
          have data := a.server.onData_of_accepted fd message fds entry authed
          split at data
          · rw [quiet (by rw [data]; rfl), data]
            exact (owned.reconnect { c with authed := true } entry rfl rfl rfl).carry _ rfl rfl rfl
              List.suffix_rfl (.inr ⟨calm, rfl, alive⟩)
          · rw [quiet (by rw [data]; rfl), data]
            exact (owned.shutdown fd calm).carry _ rfl rfl rfl List.suffix_rfl
              (.inr ⟨calm, rfl, alive⟩)
      | true =>
          cases login : c.login with
          | false =>
              have data := a.server.onData_of_authed fd message fds entry authed login
              rw [quiet (by rw [data]), data]
              exact owned.enter entry login message.dropLast fds calm alive
          | true =>
              have data := a.server.onData_of_login fd message fds entry authed login
              have forked := owned.fork entry login calm alive (split (c.last ++ message)).2
              have kept := forked.reconnect { c with last := (split (c.last ++ message)).1 } entry
                rfl rfl rfl
              have moved := kept.carry (a.server.onData fd message fds) (by rw [data])
                (by rw [data]) (by rw [data]) (by simp [data])
                (.inr ⟨calm, by rw [data]; rfl, alive⟩)
              have new : (a.server.onData fd message fds).forked.drop a.server.forked.length =
                  (split (c.last ++ message)).2.map fun pack => ⟨fd, c.pid, pack, c.accept⟩ := by
                rw [data]
                simp
              simpa [Arrivals.next, next, new] using moved

/-- Every step of the network service keeps the invariant. -/
theorem step {ports : Ports Fd} (owned : a.Owned) {label : Label Fd Addr}
    (enabled : a.server.Enabled ports label) : (a.next label).Owned := by
  have calmAt : ∀ {fd}, a.server.loop.event = some fd →
      a.server.loop.loggingIn = false ∧ a.server.loop ≠ .raised := by
    intro fd event
    obtain ⟨fds, loop⟩ := Loop.handling_of_event event
    rw [loop]
    exact ⟨rfl, by simp⟩
  cases label with
  | wait events =>
      have waits : a.server.loop = .waiting := by
        cases events with
        | none => exact enabled
        | some fds => exact enabled.1
      have moved : ∀ loop : Loop Fd, loop.loggingIn = false →
          { a with server := { a.server with loop := loop } }.Owned := fun loop calm =>
        owned.carry _ rfl rfl rfl List.suffix_rfl
          (.inr ⟨by rw [waits]; rfl, calm, by simp [waits]⟩)
      cases events with
      | none =>
          rw [next_quiet rfl (Nat.le_refl _) (by simp) (by simp)]
          exact moved .raised rfl
      | some fds =>
          rw [next_quiet rfl (Nat.le_refl _) (by simp) (by simp)]
          exact moved (.handling fds) rfl
  | eread =>
      obtain ⟨fds, loop⟩ := Loop.handling_of_event enabled
      obtain ⟨calm, alive⟩ := calmAt enabled
      have next : a.server.next .eread = { a.server with loop := .handling fds } := by
        simp [Server.next, loop]
      rw [next_quiet next (Nat.le_refl _) (by simp) (by simp)]
      exact owned.carry _ rfl rfl rfl List.suffix_rfl (.inr ⟨calm, rfl, alive⟩)
  | acceptFailed =>
      obtain ⟨fds, loop⟩ := Loop.handling_of_event enabled.1
      obtain ⟨calm, alive⟩ := calmAt enabled.1
      have next : a.server.next .acceptFailed = { a.server with loop := .handling fds } := by
        simp [Server.next, loop]
      rw [next_quiet next (Nat.le_refl _) (by simp) (by simp)]
      exact owned.carry _ rfl rfl rfl List.suffix_rfl (.inr ⟨calm, rfl, alive⟩)
  | accepted fd addr =>
      obtain ⟨fds, loop⟩ := Loop.handling_of_event enabled.1
      obtain ⟨calm, alive⟩ := calmAt enabled.1
      have taken := (owned.accepted fd addr calm).carry { a.server with
          connection := onAccept a.server.connection fd addr a.server.accepts
          sockets := Function.update a.server.sockets fd (some a.server.accepts)
          accepts := a.server.accepts + 1
          loop := .handling fds } rfl rfl rfl List.suffix_rfl (.inr ⟨calm, rfl, alive⟩)
      simpa [next, Server.next, loop] using taken
  | received message =>
      obtain ⟨-, -, fd, event, -, -, -⟩ := enabled
      obtain ⟨fds, loop⟩ := Loop.handling_of_event event
      obtain ⟨calm, alive⟩ := calmAt event
      have next : a.server.next (.received message) = a.server.onData fd message fds := by
        simp [Server.next, loop]
      exact owned.received next calm alive
  | recvFailed closed =>
      obtain ⟨fd, event, -⟩ := enabled
      obtain ⟨fds, loop⟩ := Loop.handling_of_event event
      obtain ⟨calm, alive⟩ := calmAt event
      have next : a.server.next (.recvFailed closed) =
          if closed then { a.server with loop := .handling fds }.close fd
          else { a.server with loop := .handling fds } := by
        simp [Server.next, loop]
      cases closed with
      | true =>
          rw [next_quiet next (Nat.le_refl _) (by simp) (by simp)]
          exact owned.carry _ rfl rfl rfl List.suffix_rfl (.inr ⟨calm, rfl, alive⟩)
      | false =>
          rw [next_quiet next (Nat.le_refl _) (by simp) (by simp)]
          exact owned.carry _ rfl rfl rfl List.suffix_rfl (.inr ⟨calm, rfl, alive⟩)
  | loggedIn answers =>
      obtain ⟨fd, pid, fds, loop⟩ := Loop.login_of_loggingIn enabled
      by_cases returned : playerLogin a.server.players pid answers
      · have taken := owned.logged loop returned
          (a.server.sent ++ [⟨fd, Server.loginSuccess, a.server.sockets fd, none⟩])
        simpa [next, Server.next, loop, returned, Server.send] using taken
      · have taken := owned.raised
        simpa [next, Server.next, loop, returned] using taken
  | slept =>
      have done : a.server.loop = .handling [] := enabled
      rw [next_quiet rfl (Nat.le_refl _) (by simp) (by simp)]
      exact owned.carry _ rfl rfl rfl List.suffix_rfl
        (.inr ⟨by rw [done]; rfl, rfl, by simp [done]⟩)
  | start =>
      obtain ⟨job, rest, forked⟩ := List.exists_cons_of_ne_nil enabled.2
      have next : a.server.next .start =
          { a.server with forked := rest, calls := a.server.calls ++ [job] } := by
        simp [Server.next, forked]
      rw [next_quiet next (by simp [forked]) (by simp) (by simp)]
      exact owned.carry _ rfl rfl rfl (by simp [forked]) (.inl rfl)
  | answer job resp =>
      have next : ∃ sent, a.server.next (.answer job resp) =
          { a.server with calls := a.server.calls.erase job, sent := sent } := by
        cases resp <;> exact ⟨_, rfl⟩
      obtain ⟨sent, next⟩ := next
      rw [next_quiet next (Nat.le_refl _) (by simp) (by simp)]
      exact owned.carry _ rfl rfl rfl List.suffix_rfl (.inl rfl)

end Owned

end Arrivals

end WindLtask.Gate
