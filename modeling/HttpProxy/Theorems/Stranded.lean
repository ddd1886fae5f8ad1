import HttpProxy.Theorems.Outcome

/-! Stranded sessions. A session that is not stopped should have an operation outstanding: the handler of each
    completion starts the next one or closes the session. Three of them may simply return instead. -/

namespace HttpProxy
open Search

/-- A session that is stopped or has something to wait for. -/
def Alive (s : Socket) : Prop := s.stopped = true ∨ s.outstanding ≠ []

/-- The completions that leave a session alive: those of a stopped one, and those that are neither of a request
    whose version is above 1.1, nor the end of the server's stream where a reply should begin, nor the end of a
    stream within a body. -/
def Op.Carried (s : Socket) : Op → Completion → Prop
  | readHeader .client k, .success data _ =>
    s.stopped = true ∨ ∀ version, (find? headerEnd ((s.append .client k data).message .client k)).isSome = true →
      stod (Socket.httpVersion ((s.append .client k data).message .client k)) = .ok version →
      version.gt onePointOne = false
  | readHeader .server _, .failure ec | readBody _ _ _ _, .failure ec => s.stopped = true ∨ ec ≠ .eof
  | _, _ => True

/-- An event whose handler, if it runs one, leaves the session alive. -/
def Carried (s : Socket) : Event → Prop
  | .dispatch i => ∀ op c, s.outstanding[i]? = some ⟨op, some c⟩ → op.Carried s c
  | _ => True

/-- Only `cancel` aborts an operation, and only `close` calls it. -/
def Aborted (s : Socket) : Prop :=
  ∀ o ∈ s.outstanding, o.completion = some (.failure .operationAborted) → s.stopped = true

namespace Socket
variable {s t : Socket} {side : Side} {k n : Nat}

theorem callback_alive : Alive (s.callback side k) := by
  right
  cases side
  · rcases callback_client_cases s k with h | ⟨-, -, h⟩ <;> rw [h] <;> simp [sendMessageToServer]
  · simp [callback, sendMessageToClient]

theorem readBody_alive {header : Bytes} (h : s.readBody side k header = .ok t) : Alive t := by
  rcases readBody_cases h with ⟨hs, rfl⟩ | ⟨-, rfl⟩ | ⟨-, limit, q, rfl, -⟩
  · exact Or.inl hs
  · exact callback_alive
  · exact Or.inr (by simp)

theorem close_alive : Alive s.close := Or.inl close_stopped

theorem not_alive (idle : s.outstanding = []) (running : s.stopped = false) : ¬Alive s := by
  intro h
  rcases h with h | h
  · rw [running] at h
    cases h
  · exact h idle

theorem clientHeaderHandler_alive_iff (idle : s.outstanding = []) (running : s.stopped = false)
    (h : s.clientHeaderHandler k none n = .ok t) :
    Alive t ↔ ∀ version, stod (httpVersion (s.message .client k)) = .ok version → version.gt onePointOne = false := by
  rcases clientHeaderHandler_cases h with ⟨rfl, hr⟩ | ⟨-, -, hec⟩ | ⟨-, -, ⟨version, hv, hle⟩, host, -, hb⟩
  · refine iff_of_false (not_alive (s := s.cancelTimer) idle running) fun hle => ?_
    rcases hr with hs | hec | ⟨-, version, hv, hgt⟩
    · rw [running] at hs
      cases hs
    · cases hec
    · rw [hle version hv] at hgt
      cases hgt
  · cases hec
  · refine iff_of_true (readBody_alive hb) fun version' hv' => ?_
    have same : version = version' := Except.ok.inj (hv.symm.trans hv')
    exact same ▸ hle

theorem serverHeaderHandler_alive (running : s.stopped = false) (h : s.serverHeaderHandler k none n = .ok t) :
    Alive t := by
  rcases serverHeaderHandler_cases h with ⟨-, hs | hec | hec⟩ | ⟨-, -, hec⟩ | ⟨-, -, hb⟩
  · rw [running] at hs
    cases hs
  · cases hec
  · cases hec
  · cases hec
  · exact readBody_alive hb

/-- The handler of a reply header leaves a running session alive, except at the end of the stream. -/
theorem headerHandler_failed_alive_iff (idle : s.outstanding = []) (running : s.stopped = false) {ec : ErrorCode}
    (hec : ec ≠ .operationAborted) (h : s.headerHandler side k (some ec) 0 = .ok t) :
    Alive t ↔ side = .client ∨ ec ≠ .eof := by
  cases side
  · have hc : s.clientHeaderHandler k (some ec) 0 = .ok t := h
    rcases clientHeaderHandler_cases hc with ⟨-, hr⟩ | ⟨rfl, -, -⟩ | ⟨-, hnone, -⟩
    · rcases hr with hs | habort | ⟨hnone, -⟩
      · rw [running] at hs
        cases hs
      · exact absurd (Option.some.inj habort) hec
      · cases hnone
    · exact iff_of_true close_alive (Or.inl rfl)
    · cases hnone
  · have hc : s.serverHeaderHandler k (some ec) 0 = .ok t := h
    rcases serverHeaderHandler_cases hc with ⟨rfl, hr⟩ | ⟨rfl, -, hreset⟩ | ⟨-, hnone, -⟩
    · refine iff_of_false (not_alive idle running) ?_
      rcases hr with hs | habort | heof
      · rw [running] at hs
        cases hs
      · exact absurd (Option.some.inj habort) hec
      · simp [Option.some.inj heof]
    · refine iff_of_true close_alive (Or.inr ?_)
      simp [Option.some.inj hreset]
    · cases hnone

theorem sharedHandler_alive_iff (idle : s.outstanding = []) (running : s.stopped = false) {httpBody : Bytes}
    {ec : Option ErrorCode} (h : s.sharedHandler side k httpBody ec = .ok t) : Alive t ↔ ec = none := by
  rcases sharedHandler_cases h with ⟨rfl, rfl⟩ | ⟨hec, rfl⟩
  · exact iff_of_true callback_alive rfl
  · refine iff_of_false (not_alive (s := s.append side k httpBody) idle running) ?_
    rcases hec with rfl | rfl <;> simp

theorem writeHandler_alive (running : s.stopped = false) {ec : Option ErrorCode}
    (h : s.writeHandler side k ec = .ok t) : Alive t := by
  right
  rcases writeHandler_cases h with ⟨hs, -⟩ | ⟨-, -, ⟨rfl, rfl⟩ | ⟨rfl, rfl⟩⟩
  · rw [running] at hs
    cases hs
  · simp [getMessageFromClient]
  · simp [getMessageFromServer]

theorem connectHandler_alive (running : s.stopped = false) (k : Nat) (ec : Option ErrorCode) :
    Alive (s.connectHandler k ec) := by
  rcases connectHandler_cases s k ec with ⟨-, hs⟩ | h | ⟨-, -, h⟩
  · rw [running] at hs
    cases hs
  · rw [h]
    exact close_alive
  · rw [h]
    exact Or.inr (by simp [sendMessageToServer])

theorem resolveHandler_alive (running : s.stopped = false) (k : Nat) (ec : Option ErrorCode) (entries : List Entry) :
    Alive (s.resolveHandler k ec entries) := by
  rcases resolveHandler_cases s k ec entries with ⟨-, hs⟩ | h | ⟨-, -, h⟩
  · rw [running] at hs
    cases hs
  · rw [h]
    exact close_alive
  · rw [h]
    right
    unfold connectToEndpoints
    split <;> simp

/-- A completion leaves a session alive exactly when it is carried on from. -/
theorem resume_alive_iff {op : Op} {c : Completion} (idle : s.outstanding = [])
    (aborted : c = .failure .operationAborted → s.stopped = true) (h : s.resume op c = .ok t) :
    Alive t ↔ op.Carried s c := by
  cases running : s.stopped with
  | true =>
    refine iff_of_true (Or.inl (resume_stopped idle running h)) ?_
    rcases op with ⟨side, k⟩ | ⟨side, k, limit, httpBody⟩ | _ | _ | _ <;> cases c <;> try cases side
    all_goals first | exact Or.inl running | trivial
  | false =>
    have abort : ∀ ec, c = .failure ec → ec ≠ .operationAborted := by
      intro ec hc he
      rw [running] at aborted
      exact absurd (aborted (he ▸ hc)) Bool.false_ne_true
    cases op with
    | readHeader side k =>
      cases c with
      | success data endpoints =>
        simp only [resume] at h
        split at h
        · rename_i pos hpos
          cases side with
          | client =>
            have alive := clientHeaderHandler_alive_iff (s := (s.append .client k data).finish _ none) idle running h
            refine alive.trans ⟨fun hle => Or.inr fun version _ => hle version, fun hle version hv => ?_⟩
            rcases hle with hs | hle
            · rw [running] at hs
              cases hs
            · exact hle version (by rw [hpos]; rfl) hv
          | server =>
            exact iff_of_true (serverHeaderHandler_alive (s := (s.append .server k data).finish _ none) running h) trivial
        · rename_i hnone
          rw [← Except.ok.inj h]
          refine iff_of_true (Or.inr (by simp)) ?_
          cases side with
          | client => exact Or.inr fun version hsome => by rw [hnone] at hsome; cases hsome
          | server => trivial
      | failure ec =>
        have alive := headerHandler_failed_alive_iff (s := s.finish _ (some ec)) idle running (abort ec rfl) h
        refine alive.trans ?_
        cases side <;> simp [Op.Carried, running]
    | readBody side k limit httpBody =>
      cases c with
      | success data endpoints =>
        refine iff_of_true ?_ trivial
        simp only [resume] at h
        split at h
        · exact (sharedHandler_alive_iff (s := s.finish _ none) idle running h).mpr rfl
        · rw [← Except.ok.inj h]
          exact Or.inr (by simp)
      | failure ec =>
        have alive := sharedHandler_alive_iff (s := s.finish _ (some ec)) idle running h
        refine alive.trans ?_
        rcases sharedHandler_cases h with ⟨hec, -⟩ | ⟨hec, -⟩
        · cases hec
        · have heof : ec = .eof := by
            rcases hec with hec | hec
            · exact Option.some.inj hec
            · exact absurd (Option.some.inj hec) (abort ec rfl)
          simp [Op.Carried, running, heof]
    | resolve k host =>
      cases c with
      | success data endpoints =>
        rw [← Except.ok.inj h]
        exact iff_of_true (resolveHandler_alive (s := s.finish _ none) running k none _) trivial
      | failure ec =>
        rw [← Except.ok.inj h]
        exact iff_of_true (resolveHandler_alive (s := s.finish _ (some ec)) running k (some ec) []) trivial
    | connect k entries =>
      refine iff_of_true ?_ (by cases c <;> trivial)
      cases c with
      | success data endpoints =>
        cases entries with
        | nil =>
          rw [← Except.ok.inj h]
          exact connectHandler_alive (s := s.finish _ none) running k none
        | cons entry rest =>
          rw [← Except.ok.inj h]
          exact connectHandler_alive (s := { s with serverSocket := .connected entry }.finish _ none) running k none
      | failure ec =>
        rcases entries with _ | ⟨entry, _ | ⟨next, rest⟩⟩ <;> rw [← Except.ok.inj h]
        · exact connectHandler_alive (s := s.finish _ (some ec)) running k (some ec)
        · exact connectHandler_alive (s := s.finish _ (some ec)) running k (some ec)
        · exact Or.inr (by simp)
    | write side k rest =>
      refine iff_of_true ?_ (by cases c <;> trivial)
      cases c with
      | success data endpoints =>
        simp only [resume] at h
        split at h
        · exact writeHandler_alive (s := s.finish _ none) running h
        · rw [← Except.ok.inj h]
          exact Or.inr (by simp)
      | failure ec => exact writeHandler_alive (s := s.finish _ (some ec)) running h

end Socket

/-! ### Runs -/

theorem close_aborted {s : Socket} : Aborted s.close := fun _ _ _ => Socket.close_stopped

theorem Aborted.step {s t : Socket} {e : Event} (h : Aborted s) (c : Chain s) (hs : session.Step s e t) :
    Aborted t := by
  cases c.move hs with
  | @io op q ho hq =>
    intro o ho' habort
    rw [List.mem_singleton.mp ho'] at habort
    rw [Option.some.inj habort] at hq
    cases op <;> simp [Op.allows] at hq
  | @dispatch op q t ho hr =>
    intro o ho' habort
    rcases Socket.resume_outcome rfl hr with ⟨-, hone, -⟩ | ⟨op', ec, -, out⟩
    · rw [hone, List.mem_singleton] at ho'
      rw [ho'] at habort
      cases habort
    · cases out with
      | returns _ _ _ _ _ hnil => rw [hnil] at ho'; cases ho'
      | closes _ _ _ _ _ _ hnil => rw [hnil] at ho'; cases ho'
      | starts _ _ _ _ _ hone hq =>
        rw [hone, List.mem_singleton] at ho'
        rw [ho'] at habort
        rcases hq _ habort with hc | hc <;> cases hc
  | close => exact close_aborted
  | @wait ec queue =>
    rcases Socket.handleWait_cases { s with timer := { s.timer with queue := queue } } ec with
      hw | ⟨-, -, hw⟩ | ⟨-, -, hw⟩ <;> rw [hw]
    · exact h
    · exact close_aborted
    · exact h
  | expire | elapse | disconnect => exact h

theorem reachable_aborted {s : Socket} (h : session.Reachable s) : Aborted s := by
  refine h.invariant (fun s ⟨now, hs⟩ => ?_) fun _ _ _ hr ha hs => ha.step (reachable_chain hr) hs
  rw [hs]
  intro o ho habort
  rw [List.mem_singleton.mp ho] at habort
  cases habort

theorem step_alive_iff {s t : Socket} {e : Event} (hr : session.Reachable s) (h : Alive s) (hs : session.Step s e t) :
    Alive t ↔ Carried s e := by
  cases (reachable_chain hr).move hs with
  | io => exact iff_of_true (Or.inr (by simp)) trivial
  | @dispatch op q t ho hres =>
    have aborted : q = .failure .operationAborted → s.stopped = true := fun hq =>
      reachable_aborted hr _ (ho ▸ List.mem_singleton_self _) (congrArg some hq)
    refine (Socket.resume_alive_iff (s := { s with outstanding := [] }) rfl aborted hres).trans ?_
    constructor
    · intro carried op' q' ho'
      rw [ho] at ho'
      cases Option.some.inj ho'
      exact carried
    · intro carried
      exact carried op q (by rw [ho]; rfl)
  | close => exact iff_of_true Socket.close_alive trivial
  | @wait ec queue =>
    refine iff_of_true ?_ trivial
    rcases Socket.handleWait_cases { s with timer := { s.timer with queue := queue } } ec with
      hw | ⟨-, -, hw⟩ | ⟨-, -, hw⟩ <;> rw [hw]
    · exact h
    · exact Socket.close_alive
    · exact h
  | expire | elapse | disconnect => exact iff_of_true h trivial

/-- In a run without a fault every state is alive exactly when every completion is carried on from. -/
theorem no_stranded_session {s₀ t : Socket} {ps : List (Socket × Event)} (init : session.Init s₀)
    (run : session.Run s₀ ps t) : (∀ p ∈ ps, Alive p.1) ∧ Alive t ↔ ∀ p ∈ ps, Carried p.1 p.2 := by
  refine run.forall_states_iff init ?_ fun s e t hr h hs => step_alive_iff hr h hs
  obtain ⟨now, rfl⟩ := init
  exact Or.inr (by simp [Socket.start, Socket.getMessageFromClient])

/-- A request of a version that the proxy does not support. -/
def versionTwo : Bytes := ascii "GET / HTTP/2.0\r\n\r\n"

def receivedVersionTwo : List Event := [.io 0 (.success versionTwo []), .dispatch 0]

def afterVersionTwo : Socket := (session.exec (Socket.new 0).start receivedVersionTwo).getD (Socket.new 0).start

theorem versionTwo_run :
    session.Run (Socket.new 0).start (session.trail (Socket.new 0).start receivedVersionTwo) afterVersionTwo := by
  refine .of_exec ?_
  decide +kernel

theorem afterVersionTwo_stranded : afterVersionTwo.stopped = false ∧ afterVersionTwo.outstanding = [] := by
  decide +kernel

theorem no_stranded_session_versionTwo :
    ¬∀ p ∈ session.trail (Socket.new 0).start receivedVersionTwo, Carried p.1 p.2 := by
  intro carried
  obtain ⟨-, alive⟩ := (no_stranded_session ⟨0, rfl⟩ versionTwo_run).mpr carried
  exact Socket.not_alive afterVersionTwo_stranded.2 afterVersionTwo_stranded.1 alive

theorem session_stranded : ¬∀ s, session.Reachable s → s.stopped = false → s.outstanding ≠ [] := by
  intro never
  exact never afterVersionTwo (versionTwo_run.reachable ⟨0, rfl⟩) afterVersionTwo_stranded.1 afterVersionTwo_stranded.2

end HttpProxy
