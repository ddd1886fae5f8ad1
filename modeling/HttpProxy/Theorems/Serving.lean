import HttpProxy.Server
import HttpProxy.Library.Hosting
import HttpProxy.Theorems.Deadline
import HttpProxy.Theorems.Faults

/-! The process. Its sessions share nothing, so that each of them goes through a run of its own, whatever the others
    do, until an exception ends them all; and as long as the process lives, one acceptance is outstanding. -/

namespace HttpProxy
open Search

/-- What a step of the process can be. -/
inductive Turn (s : Server) : ServerEvent → Server → Prop
  | arrive {i : Nat} : s.accepts[i]? = some .waiting →
      Turn s (.arrive i) { s with accepts := s.accepts.set i (.queued none true) }
  | fail {i : Nat} {ec : ErrorCode} : s.accepts[i]? = some .waiting →
      Turn s (.fail i ec) { s with accepts := s.accepts.set i (.queued (some ec) false) }
  | depart {i : Nat} : s.accepts[i]? = some (.queued none true) →
      Turn s (.depart i) { s with accepts := s.accepts.set i (.queued none false) }
  | accept {i : Nat} : s.accepts[i]? = some (.queued none true) →
      Turn s (.accept i) { s with accepts := s.accepts.eraseIdx i ++ [.waiting],
                                  sessions := s.sessions ++ [(Socket.new s.now).start] }
  | session {i : Nat} {e : Event} {x y : Socket} : s.sessions[i]? = some x → e.own = true → session.Step x e y →
      Turn s (.session i e) { s with sessions := s.sessions.set i y }
  | elapse (d : Nat) : Turn s (.elapse d)
      { s with sessions := s.sessions.map fun x => { x with now := x.now + d }, now := s.now + d }

namespace Server
variable {s t : Server} {i : Nat}

theorem acceptHandler_ok_iff {ec : Option ErrorCode} {connected : Bool} :
    (∃ t, s.acceptHandler ec connected = .ok t) ↔ ec = none ∧ connected = true := by
  cases ec <;> cases connected <;> simp [acceptHandler]

theorem step_accept {out : Except Fault Server} (h : s.step (.accept i) = some out) :
    ∃ ec connected, s.accepts[i]? = some (.queued ec connected) ∧
      out = { s with accepts := s.accepts.eraseIdx i }.acceptHandler ec connected := by
  simp only [step] at h
  split at h
  · rename_i ec connected ha
    exact ⟨ec, connected, ha, (Option.some.inj h).symm⟩
  · cases h

theorem step_session {e : Event} {out : Except Fault Server} (h : s.step (.session i e) = some out) :
    ∃ x out', s.sessions[i]? = some x ∧ e.own = true ∧ x.step e = some out' ∧
      out = out'.map fun y => { s with sessions := s.sessions.set i y } := by
  simp only [step] at h
  split at h
  · rename_i x hx
    split at h
    · rename_i hown
      obtain ⟨out', ho, rfl⟩ := Option.map_eq_some_iff.mp h
      exact ⟨x, out', hx, hown, ho, rfl⟩
    · cases h
  · cases h

/-- The other events do not fault. -/
theorem step_peer {e : ServerEvent} {f : Fault} (h : s.step e = some (.error f)) :
    (∃ i, e = .accept i) ∨ ∃ i e', e = .session i e' := by
  cases e with
  | accept i => exact Or.inl ⟨i, rfl⟩
  | session i e' => exact Or.inr ⟨i, e', rfl⟩
  | elapse d => cases h
  | arrive i | fail i ec | depart i =>
    simp only [step] at h
    split at h <;> cases h

end Server

theorem Turn.of_step {s t : Server} {e : ServerEvent} (h : server.Step s e t) : Turn s e t := by
  rw [server_step] at h
  cases e with
  | arrive i =>
    simp only [Server.step] at h
    split at h
    · rename_i ha
      cases h
      exact .arrive ha
    · cases h
  | fail i ec =>
    simp only [Server.step] at h
    split at h
    · rename_i ha
      cases h
      exact .fail ha.1
    · cases h
  | depart i =>
    simp only [Server.step] at h
    split at h
    · rename_i ha
      cases h
      exact .depart ha
    · cases h
  | accept i =>
    obtain ⟨ec, connected, ha, ht⟩ := Server.step_accept h
    obtain ⟨rfl, rfl⟩ := Server.acceptHandler_ok_iff.mp ⟨t, ht.symm⟩
    cases ht
    exact .accept ha
  | session i e =>
    obtain ⟨x, out, hx, hown, hstep, ht⟩ := Server.step_session h
    cases out with
    | error f => cases ht
    | ok y =>
      cases ht
      exact .session hx hown hstep
  | elapse d =>
    cases h
    exact .elapse d

/-! ### The sessions as members of the process -/

/-- What an event of the process is for session `i`. -/
def ServerEvent.part : ServerEvent → Nat → Option Event
  | .session j e, i => if j = i then some e else none
  | .elapse d, _ => some (.elapse d)
  | _, _ => none

theorem sessions_move {s t : Server} {e : ServerEvent} {i : Nat} {x : Socket} (h : server.Step s e t)
    (hx : s.sessions[i]? = some x) :
    ∃ y, t.sessions[i]? = some y ∧ (e.part i).elim (y = x) fun e' => session.Step x e' y := by
  obtain ⟨hlt, hget⟩ := List.getElem?_eq_some_iff.mp hx
  cases Turn.of_step h with
  | arrive | fail | depart => exact ⟨x, hx, rfl⟩
  | accept => exact ⟨x, by rw [List.getElem?_append_left hlt, hx], rfl⟩
  | @session j e x' y hx' hown hstep =>
    by_cases hj : j = i
    · subst hj
      obtain rfl : x' = x := Option.some.inj (hx'.symm.trans hx)
      exact ⟨y, List.getElem?_set_self hlt, by simpa [ServerEvent.part] using hstep⟩
    · exact ⟨x, by rw [List.getElem?_set_ne hj, hx], by simp [ServerEvent.part, hj]⟩
  | elapse d => exact ⟨{ x with now := x.now + d }, by rw [List.getElem?_map, hx]; rfl, rfl⟩

theorem sessions_join {s t : Server} {e : ServerEvent} {i : Nat} {x : Socket} (h : server.Step s e t)
    (hs : s.sessions[i]? = none) (hx : t.sessions[i]? = some x) : x = (Socket.new s.now).start := by
  have hle : s.sessions.length ≤ i := List.getElem?_eq_none_iff.mp hs
  cases Turn.of_step h with
  | arrive | fail | depart => cases hs.symm.trans hx
  | accept =>
    rw [List.getElem?_append_right hle] at hx
    exact (List.mem_singleton.mp (List.mem_of_getElem? hx))
  | session =>
    rw [List.getElem?_eq_none (by rw [List.length_set]; exact hle)] at hx
    cases hx
  | elapse =>
    rw [List.getElem?_map, hs] at hx
    cases hx

/-- The process hosts its sessions. -/
def hosting : Machine.Hosting server session where
  members := Server.sessions
  part := ServerEvent.part
  empty := fun ⟨_, hs⟩ => hs ▸ rfl
  moves := sessions_move
  joins h hs hx := ⟨_, sessions_join h hs hx⟩

/-- What a session goes through is a run of its own machine. -/
theorem session_run {s₀ s : Server} {ps : List (Server × ServerEvent)} (init : server.Init s₀)
    (run : server.Run s₀ ps s) {i : Nat} {x : Socket} (hx : s.sessions[i]? = some x) :
    ∃ now, session.Run (Socket.new now).start (hosting.view i ps) x := by
  obtain ⟨x₀, ⟨now, rfl⟩, hrun⟩ := hosting.run init run hx
  exact ⟨now, hrun⟩

theorem session_reachable {s : Server} (h : server.Reachable s) {i : Nat} {x : Socket} (hx : s.sessions[i]? = some x) :
    session.Reachable x := by
  obtain ⟨s₀, ps, init, run⟩ := h.exists_run
  obtain ⟨now, run'⟩ := session_run init run hx
  exact run'.reachable ⟨now, rfl⟩

/-! ### Runs -/

/-- A session's own events take no time. -/
theorem own_now {x y : Socket} {e : Event} (h : session.Reachable x) (own : e.own = true) (hs : session.Step x e y) :
    y.now = x.now := by
  cases (reachable_chain h).move hs with
  | dispatch ho hr => exact Socket.resume_now (s := { x with outstanding := [] }) rfl hr
  | wait => exact Socket.handleWait_now
  | close | elapse => cases own
  | io | expire | disconnect => rfl

/-- One acceptance is outstanding, and the sessions have the time of the process. -/
structure Serving (s : Server) : Prop where
  accepting : s.accepts.length = 1
  clocks : ∀ x ∈ s.sessions, x.now = s.now

theorem Serving.step {s t : Server} {e : ServerEvent} (h : Serving s) (hr : server.Reachable s)
    (hs : server.Step s e t) : Serving t := by
  cases Turn.of_step hs with
  | arrive | fail | depart => exact ⟨(List.length_set ..).trans h.accepting, h.clocks⟩
  | @accept i ha =>
    obtain ⟨hlt, -⟩ := List.getElem?_eq_some_iff.mp ha
    refine ⟨?_, fun x hx => ?_⟩
    · rw [List.length_append, List.length_eraseIdx_of_lt hlt, h.accepting]
      rfl
    · rcases List.mem_append.mp hx with hx | hx
      · exact h.clocks x hx
      · rw [List.mem_singleton.mp hx]
        rfl
  | @session i e x y hx own hstep =>
    refine ⟨h.accepting, fun z hz => ?_⟩
    rcases List.mem_or_eq_of_mem_set hz with hz | rfl
    · exact h.clocks z hz
    · exact (own_now (session_reachable hr hx) own hstep).trans (h.clocks x (List.mem_of_getElem? hx))
  | elapse d =>
    refine ⟨h.accepting, fun z hz => ?_⟩
    obtain ⟨x, hx, rfl⟩ := List.mem_map.mp hz
    exact congrArg (· + d) (h.clocks x hx)

theorem reachable_serving {s : Server} (h : server.Reachable s) : Serving s :=
  h.invariant (fun _ ⟨_, hs⟩ => hs ▸ ⟨rfl, fun _ hx => absurd hx List.not_mem_nil⟩) fun _ _ _ hr hk hs => hk.step hr hs

/-- The event takes a client on. -/
def ServerEvent.admits : ServerEvent → Bool
  | accept _ => true
  | _ => false

theorem sessions_admitted {s₀ t : Server} {ps : List (Server × ServerEvent)} (init : server.Init s₀)
    (run : server.Run s₀ ps t) : t.sessions.length = ps.countP fun p => p.2.admits := by
  induction run with
  | nil =>
    obtain ⟨now, rfl⟩ := init
    rfl
  | step _ hs ih =>
    rw [List.countP_cons, ← ih]
    cases Turn.of_step hs with
    | accept => rw [List.length_append]; rfl
    | session => exact List.length_set
    | elapse => exact List.length_map _
    | arrive | fail | depart => rfl

/-- As long as the process lives, one acceptance is outstanding; there are as many sessions as clients were taken
    on, and what each session goes through is a run of its own machine at the time of the process, whatever the
    other sessions and the other clients do. -/
theorem sessions_apart {s₀ t : Server} {ps : List (Server × ServerEvent)} (init : server.Init s₀)
    (run : server.Run s₀ ps t) :
    t.accepts.length = 1 ∧ t.sessions.length = (ps.countP fun p => p.2.admits) ∧
      ∀ i x, t.sessions[i]? = some x → x.now = t.now ∧
        ∃ now, session.Run (Socket.new now).start (hosting.view i ps) x := by
  have serving := reachable_serving (run.reachable init)
  refine ⟨serving.accepting, sessions_admitted init run, fun i x hx => ⟨?_, session_run init run hx⟩⟩
  exact serving.clocks x (List.mem_of_getElem? hx)

/-- Two clients are taken on, the second five seconds after the first, who then sends a request line of two words. -/
def twoClients : List ServerEvent :=
  [.arrive 0, .accept 0, .elapse (5 * 10 ^ 9), .arrive 0, .accept 0, .session 0 (.io 0 (.success twoWords []))]

def afterTwoClients : Server := (server.exec (Server.main 0) twoClients).getD (Server.main 0)

theorem twoClients_run : server.Run (Server.main 0) (server.trail (Server.main 0) twoClients) afterTwoClients := by
  refine .of_exec ?_
  decide +kernel

/-- The session of the first client, its completion queued. -/
def firstClient : Socket := afterTwoClients.sessions.headD (Socket.new 0)

theorem firstClient_session : afterTwoClients.sessions[0]? = some firstClient := by decide +kernel

theorem sessions_apart_twoClients : afterTwoClients.sessions.length = 2 ∧ firstClient.now = 5 * 10 ^ 9 ∧
    ∃ now, session.Run (Socket.new now).start (hosting.view 0 (server.trail (Server.main 0) twoClients))
      firstClient := by
  obtain ⟨-, admitted, apart⟩ := sessions_apart ⟨0, rfl⟩ twoClients_run
  obtain ⟨clock, run⟩ := apart 0 firstClient firstClient_session
  have two : (server.trail (Server.main 0) twoClients).countP (fun p => p.2.admits) = 2 := by decide +kernel
  have time : afterTwoClients.now = 5 * 10 ^ 9 := by decide +kernel
  exact ⟨admitted.trans two, clock.trans time, run⟩

/-! ### The end of the process -/

/-- An event whose handler, if it runs one, returns: a client that is still there is taken on, or a completion is
    contained in its session. -/
def Server.Contained (s : Server) : ServerEvent → Prop
  | .accept i => ∀ ec connected, s.accepts[i]? = some (.queued ec connected) → ec = none ∧ connected = true
  | .session i e => ∀ x, s.sessions[i]? = some x → HttpProxy.Contained x e
  | _ => True

theorem server_step_contained {s t : Server} {e : ServerEvent} (h : server.Step s e t) : s.Contained e := by
  cases e with
  | accept i =>
    intro ec connected ha
    obtain ⟨ec', connected', ha', ht⟩ := Server.step_accept h
    cases ha.symm.trans ha'
    exact Server.acceptHandler_ok_iff.mp ⟨t, ht.symm⟩
  | session i e =>
    intro x hx
    obtain ⟨x', out, hx', -, hstep, ht⟩ := Server.step_session h
    cases hx.symm.trans hx'
    cases out with
    | error f => cases ht
    | ok y => exact step_contained (t := y) hstep
  | arrive | fail | depart | elapse => trivial

theorem server_fault_not_contained {s : Server} {e : ServerEvent} (h : server.Faults s e) : ¬s.Contained e := by
  obtain ⟨f, hf⟩ := h
  intro contained
  rcases Server.step_peer hf with ⟨i, rfl⟩ | ⟨i, e, rfl⟩
  · obtain ⟨ec, connected, ha, ht⟩ := Server.step_accept hf
    obtain ⟨t, ht'⟩ := Server.acceptHandler_ok_iff (s := { s with accepts := s.accepts.eraseIdx i }).mpr
      (contained ec connected ha)
    cases ht.trans ht'
  · obtain ⟨x, out, hx, -, hstep, ht⟩ := Server.step_session hf
    cases out with
    | error f' => exact fault_not_contained ⟨f', hstep⟩ (contained x hx)
    | ok y => cases ht

/-- A run of the process ends without a fault, an exception or undefined behaviour, exactly when each acceptance that
    is run found its client still there and each completion that is run is contained in its session. -/
theorem process_survives {s₀ : Server} {ps : List (Server × ServerEvent)} {out : Except Fault Server}
    (init : server.Init s₀) (run : server.Ends s₀ ps out) : (∃ t, out = .ok t) ↔ ∀ p ∈ ps, p.1.Contained p.2 :=
  run.ok_iff_forall_steps init (fun _ _ _ _ h => server_step_contained h) fun _ _ _ h => server_fault_not_contained h

/-- The request of the first client is handled: the process ends, the session of the second with it. -/
theorem process_survives_twoClients : ¬afterTwoClients.Contained (.session 0 (.dispatch 0)) := by
  intro contained
  have thrown : server.step afterTwoClients (.session 0 (.dispatch 0)) = some (.error (.thrown .invalidArgument)) := by
    decide +kernel
  have before : ∀ p ∈ server.trail (Server.main 0) twoClients, p.1.Contained p.2 := by
    intro p hp
    obtain ⟨t, ht⟩ := twoClients_run.step_of_mem hp
    exact server_step_contained ht
  obtain ⟨t, ht⟩ := (process_survives ⟨0, rfl⟩ (.fault twoClients_run thrown)).mpr
    (List.forall_mem_cons.mpr ⟨contained, before⟩)
  cases ht

/-- A client comes to a process of `n` sessions and is taken on; it sends a request line of two words, which is
    handled. -/
def newcomer (n : Nat) : List ServerEvent :=
  [.arrive 0, .accept 0, .session n (.io 0 (.success twoWords [])), .session n (.dispatch 0)]

/-- A session that has received a request line of two words, its completion still queued. -/
def twoWordsQueued (now : Nat) : Socket :=
  { (Socket.new now).start with
    outstanding := [⟨.readHeader .client 0, some (.success twoWords [])⟩]
    trace := .taken .client twoWords :: (Socket.new now).start.trace }

theorem twoWords_received (now : Nat) :
    session.Step (Socket.new now).start (.io 0 (.success twoWords [])) (twoWordsQueued now) := by
  have allowed : (Op.readHeader .client 0).allows (.success twoWords []) = true := by decide +kernel
  exact if_pos (e := none) allowed

/-- A version that cannot be read leaves the handler of a request header as the exception of `stod`. -/
theorem Socket.clientHeaderHandler_thrown {s : Socket} {k len : Nat} {f : Fault} (running : s.stopped = false)
    (version : stod (httpVersion (s.message .client k)) = .error f) :
    s.clientHeaderHandler k none len = .error f := by
  have version' : stod (httpVersion (s.cancelTimer.message .client k)) = .error f := version
  simp only [clientHeaderHandler, cancelTimer_stopped, running, version', Bool.false_eq_true, ↓reduceIte]
  rfl

theorem twoWords_thrown (now : Nat) :
    session.step (twoWordsQueued now) (.dispatch 0) = some (.error (.thrown .invalidArgument)) := by
  let received := { twoWordsQueued now with outstanding := [] }.append .client 0 twoWords
  let ended := received.finish (.readHeader .client 0) none
  have found : find? headerEnd (received.message .client 0) = some 5 :=
    show find? headerEnd twoWords = some 5 by decide +kernel
  have version : stod (Socket.httpVersion (ended.message .client 0)) = .error (.thrown .invalidArgument) := by
    rw [show ended.message .client 0 = twoWords from rfl]
    decide +kernel
  have thrown : ended.clientHeaderHandler 0 none (5 + headerEnd.length) = .error (.thrown .invalidArgument) :=
    Socket.clientHeaderHandler_thrown rfl version
  have resumed : { twoWordsQueued now with outstanding := [] }.resume (.readHeader .client 0) (.success twoWords []) =
      .error (.thrown .invalidArgument) := by
    rw [Socket.resume, found]
    exact thrown
  exact congrArg some resumed

theorem Server.step_of_session {s : Server} {i : Nat} {e : Event} {x : Socket} {out : Except Fault Socket}
    (hx : s.sessions[i]? = some x) (own : e.own = true) (h : session.step x e = some out) :
    server.step s (.session i e) = some (out.map fun y => { s with sessions := s.sessions.set i y }) := by
  rw [session_step_eq] at h
  simp [server_step_eq, step, hx, own, h]

/-- A client whose acceptance is queued ends the process with its request. -/
theorem newcomer_thrown {s : Server} (ha : s.accepts = [.queued none true]) :
    ∃ ps, server.Ends s ps (.error (.thrown .invalidArgument)) ∧
      (ps.map Prod.snd).reverse = (newcomer s.sessions.length).tail := by
  have admitted : server.Step s (.accept 0)
      { s with accepts := [.waiting], sessions := s.sessions ++ [(Socket.new s.now).start] } := by
    simp [server_step, Server.step, Server.acceptHandler, Server.startAccept, ha]
  have received : server.Step
      { s with accepts := [.waiting], sessions := s.sessions ++ [(Socket.new s.now).start] }
      (.session s.sessions.length (.io 0 (.success twoWords [])))
      { s with accepts := [.waiting], sessions := s.sessions ++ [twoWordsQueued s.now] } := by
    refine (Server.step_of_session List.getElem?_concat_length rfl (twoWords_received s.now)).trans ?_
    simp [Except.map]
  have thrown : server.step { s with accepts := [.waiting], sessions := s.sessions ++ [twoWordsQueued s.now] }
      (.session s.sessions.length (.dispatch 0)) = some (.error (.thrown .invalidArgument)) :=
    Server.step_of_session List.getElem?_concat_length rfl (twoWords_thrown s.now)
  exact ⟨_, .fault (.step (.step .nil admitted) received) thrown, rfl⟩

/-- From every state of the process one client ends it, with all its sessions, by an exception that nothing catches: it
    connects, unless it already has, and sends a request line of two words. An acceptance that is queued with an error,
    or with a client who left, does the same when it is run. -/
theorem process_mortal {s : Server} (h : server.Reachable s) : ∃ ps e, server.Ends s ps (.error (.thrown e)) ∧
    (e = .invalidArgument ∧ (ps.map Prod.snd).reverse = newcomer s.sessions.length ∨
      e = .invalidArgument ∧ s.accepts = [.queued none true] ∧
        (ps.map Prod.snd).reverse = (newcomer s.sessions.length).tail ∨
      ∃ ec connected, s.accepts = [.queued ec connected] ∧ ¬(ec = none ∧ connected = true) ∧
        ps.map Prod.snd = [.accept 0] ∧ e = .systemError (ec.getD .notConnected)) := by
  obtain ⟨a, ha⟩ := List.length_eq_one_iff.mp (reachable_serving h).accepting
  cases a with
  | waiting =>
    have arrived : server.Step s (.arrive 0) { s with accepts := [.queued none true] } := by
      simp [server_step, Server.step, ha]
    obtain ⟨ps, ends, hps⟩ := newcomer_thrown (s := { s with accepts := [.queued none true] }) rfl
    refine ⟨_, _, ends.prepend arrived, Or.inl ⟨rfl, ?_⟩⟩
    rw [List.map_append, List.reverse_append, hps]
    rfl
  | queued ec connected =>
    by_cases admissible : ec = none ∧ connected = true
    · obtain ⟨rfl, rfl⟩ := admissible
      obtain ⟨ps, ends, hps⟩ := newcomer_thrown ha
      exact ⟨ps, _, ends, Or.inr (Or.inl ⟨rfl, ha, hps⟩)⟩
    · have thrown : server.step s (.accept 0) = some (.error (.thrown (.systemError (ec.getD .notConnected)))) := by
        rcases ec with _ | ec
        · cases connected
          · simp [server_step_eq, Server.step, Server.acceptHandler, ha]
          · exact absurd ⟨rfl, rfl⟩ admissible
        · simp [server_step_eq, Server.step, Server.acceptHandler, ha]
      exact ⟨_, _, .fault .nil thrown, Or.inr (Or.inr ⟨ec, connected, ha, admissible, rfl, rfl⟩)⟩

theorem process_mortal_twoClients : ∃ ps, server.Ends afterTwoClients ps (.error (.thrown .invalidArgument)) ∧
    (ps.map Prod.snd).reverse = newcomer 2 := by
  have two : afterTwoClients.sessions.length = 2 := by decide +kernel
  have waiting : afterTwoClients.accepts = [.waiting] := by decide +kernel
  obtain ⟨ps, e, ends, ⟨rfl, events⟩ | ⟨-, ha, -⟩ | ⟨ec, connected, ha, -⟩⟩ :=
    process_mortal (twoClients_run.reachable ⟨0, rfl⟩)
  · exact ⟨ps, ends, two ▸ events⟩
  · cases waiting.symm.trans ha
  · cases waiting.symm.trans ha

/-! ### The lives of the sessions -/

/-- Time passes promptly for every session. -/
def Server.Prompt (s : Server) : ServerEvent → Prop
  | .elapse d => ∀ x ∈ s.sessions, HttpProxy.Prompt x (.elapse d)
  | _ => True

instance (s : Server) : ∀ e, Decidable (s.Prompt e)
  | .elapse d => inferInstanceAs (Decidable (∀ x ∈ s.sessions, HttpProxy.Prompt x (.elapse d)))
  | .arrive _ | .fail _ _ | .depart _ | .accept _ | .session _ _ => .isTrue trivial

/-- In a timed run of the process, where the timer of no session is late, a session that is not stopped and whose client
    is there was started within the last timeout; the timer closes each at its own deadline and at no other time. -/
theorem sessions_expire {s₀ t : Server} {ps : List (Server × ServerEvent)} (init : server.Init s₀)
    (run : server.Run s₀ ps t) (prompt : ∀ p ∈ ps, p.1.Prompt p.2) {i : Nat} {x : Socket}
    (hx : t.sessions[i]? = some x) : ∃ now, session.Run (Socket.new now).start (hosting.view i ps) x ∧
      (x.stopped = false → x.clientConnected = true → t.now ≤ now + timeout) ∧
      ∀ time, .timedOut time ∈ x.trace → time = now + timeout := by
  have clock : x.now = t.now := (reachable_serving (run.reachable init)).clocks x (List.mem_of_getElem? hx)
  obtain ⟨now, hrun⟩ := session_run init run hx
  have prompt' : ∀ q ∈ hosting.view i ps, HttpProxy.Prompt q.1 q.2 := by
    intro q hq
    obtain ⟨⟨s, e⟩, hp, hs, he⟩ := Machine.Hosting.mem_view hq
    have hprompt := prompt _ hp
    cases e with
    | elapse d =>
      rw [← Option.some.inj he]
      exact hprompt q.1 (List.mem_of_getElem? hs)
    | session j e' =>
      -- The event is the session's own, so that no time passes with it.
      obtain ⟨u, hstep⟩ := run.step_of_mem hp
      simp only [hosting, ServerEvent.part, Option.ite_none_right_eq_some, Option.some.injEq] at he
      rw [← he.2]
      cases Turn.of_step hstep with
      | session _ own _ =>
        cases e' with
        | elapse d => cases own
        | io | dispatch | expire | wait | close | disconnect => trivial
    | arrive | fail | depart | accept => cases he
  obtain ⟨ahead, fixed⟩ := run_timed hrun prompt'
  exact ⟨now, hrun, fun running connected => clock ▸ ahead running connected, fixed⟩

theorem sessions_expire_twoClients :
    ∃ now, session.Run (Socket.new now).start (hosting.view 0 (server.trail (Server.main 0) twoClients)) firstClient ∧
      afterTwoClients.now ≤ now + timeout := by
  have prompt : ∀ p ∈ server.trail (Server.main 0) twoClients, p.1.Prompt p.2 := by decide +kernel
  obtain ⟨now, run, ahead, -⟩ := sessions_expire ⟨0, rfl⟩ twoClients_run prompt firstClient_session
  exact ⟨now, run, ahead (by decide +kernel) (by decide +kernel)⟩

end HttpProxy
