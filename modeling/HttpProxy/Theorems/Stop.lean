import HttpProxy.Theorems.Outcome

/-! The stop of a session. A stopped session should start nothing any more; the handler of the body reads is the
    one that goes on without a look at the flag. -/

namespace HttpProxy
open Log

/-- An action that starts nothing after the stop. -/
def Final (a : Action) (older : List Action) : Prop :=
  .stop ∈ older → a ≠ .wait ∧ ∀ op, a ≠ .start op

/-- The completions after which a stopped session starts nothing: all but the one that completes a body. -/
def Op.Quiet (s : Socket) : Op → Completion → Prop
  | readBody _ _ limit httpBody, .success data _ =>
    s.stopped = true → Socket.bodyDone limit (httpBody ++ data) = false
  | _, _ => True

/-- An event whose handler, if it runs one, starts nothing in a stopped session. -/
def Quiet (s : Socket) : Event → Prop
  | .dispatch i => ∀ op c, s.outstanding[i]? = some ⟨op, some c⟩ → op.Quiet s c
  | _ => True

theorem final_of_passive {a : Action} (ha : a.Passive) (older : List Action) : Final a older := by
  intro _
  cases a <;> first | exact ha.elim | exact ⟨nofun, nofun⟩

theorem always_final_append {newer older : List Action} (h : ∀ a ∈ newer, a.Passive) :
    Always Final (newer ++ older) ↔ Always Final older :=
  always_append fun a ha older => final_of_passive (h a ha) older

theorem stop_mem_append {newer older : List Action} (h : ∀ a ∈ newer, a.Passive) :
    .stop ∈ newer ++ older ↔ .stop ∈ older := by
  rw [List.mem_append]
  exact or_iff_right fun hmem => h _ hmem

theorem always_final_finish {s : Socket} {op : Op} {ec : Option ErrorCode} :
    Always Final (s.finish op ec).trace ↔ Always Final s.trace :=
  and_iff_right fun _ => ⟨nofun, fun _ => nofun⟩

theorem stop_mem_finish {s : Socket} {op : Op} {ec : Option ErrorCode} :
    .stop ∈ (s.finish op ec).trace ↔ .stop ∈ s.trace := by
  simp

/-! ### The handlers of a stopped session -/

namespace Socket
variable {s t : Socket} {side : Side} {k n : Nat} {ec : Option ErrorCode} {op : Op} {c : Completion}

theorem headerHandler_of_stopped (stopped : s.stopped = true) (h : s.headerHandler side k ec n = .ok t) :
    t.trace = s.trace ∧ t.outstanding = s.outstanding := by
  cases side
  · have ht : s.clientHeaderHandler k ec n = .ok s.cancelTimer := by simp [clientHeaderHandler, stopped]
    obtain rfl : s.cancelTimer = t := Except.ok.inj (ht.symm.trans h)
    exact ⟨rfl, rfl⟩
  · have ht : s.serverHeaderHandler k ec n = .ok s := by simp [serverHeaderHandler, stopped]
    obtain rfl : s = t := Except.ok.inj (ht.symm.trans h)
    exact ⟨rfl, rfl⟩

theorem writeHandler_of_stopped (stopped : s.stopped = true) : s.writeHandler side k ec = .ok s := by
  cases side <;> simp [writeHandler, clientWriteHandler, serverWriteHandler, stopped]

theorem resolveHandler_of_stopped (stopped : s.stopped = true) {entries : List Entry} :
    s.resolveHandler k ec entries = s := by
  simp [resolveHandler, stopped]

theorem connectHandler_of_stopped (stopped : s.stopped = true) : s.connectHandler k ec = s := by
  simp [connectHandler, stopped]

/-- In a stopped session an operation waits again, or its handler returns at once, unless it is that of a
    complete body. -/
theorem resume_of_stopped (stopped : s.stopped = true) (quiet : op.Quiet s c) (h : s.resume op c = .ok t) :
    t.trace = s.trace ∨ ∃ op' ec, t.trace = (s.finish op' ec).trace := by
  cases op with
  | readHeader side k =>
    cases c with
    | success data endpoints =>
      simp only [resume] at h
      split at h
      · have stopped' : ((s.append side k data).finish (.readHeader side k) none).stopped = true := stopped
        exact Or.inr ⟨_, none, (headerHandler_of_stopped stopped' h).1⟩
      · exact Or.inl (congrArg Socket.trace (Except.ok.inj h)).symm
    | failure ec =>
      have stopped' : (s.finish (.readHeader side k) (some ec)).stopped = true := stopped
      exact Or.inr ⟨_, (some ec), (headerHandler_of_stopped stopped' h).1⟩
  | readBody side k limit httpBody =>
    cases c with
    | success data endpoints =>
      have incomplete : bodyDone limit (httpBody ++ data) = false := quiet stopped
      simp only [resume, incomplete, Bool.false_eq_true, ↓reduceIte] at h
      exact Or.inl (congrArg Socket.trace (Except.ok.inj h)).symm
    | failure ec =>
      rcases sharedHandler_cases h with ⟨hec, -⟩ | ⟨-, rfl⟩
      · cases hec
      · exact Or.inr ⟨_, (some ec), rfl⟩
  | resolve k host =>
    have stopped' : ∀ ec, (s.finish (.resolve k host) ec).stopped = true := fun _ => stopped
    cases c with
    | success data endpoints =>
      rw [resume, resolveHandler_of_stopped (stopped' none)] at h
      exact Or.inr ⟨_, none, (congrArg Socket.trace (Except.ok.inj h)).symm⟩
    | failure ec =>
      rw [resume, resolveHandler_of_stopped (stopped' (some ec))] at h
      exact Or.inr ⟨_, (some ec), (congrArg Socket.trace (Except.ok.inj h)).symm⟩
  | connect k entries =>
    have stopped' : ∀ socket ec, ({ s with serverSocket := socket }.finish (.connect k entries) ec).stopped = true :=
      fun _ _ => stopped
    cases c with
    | success data endpoints =>
      cases entries with
      | nil =>
        rw [resume, connectHandler_of_stopped (stopped' s.serverSocket none)] at h
        exact Or.inr ⟨_, none, (congrArg Socket.trace (Except.ok.inj h)).symm⟩
      | cons entry rest =>
        rw [resume, connectHandler_of_stopped (stopped' _ none)] at h
        exact Or.inr ⟨_, none, (congrArg Socket.trace (Except.ok.inj h)).symm⟩
    | failure ec =>
      rcases entries with _ | ⟨entry, _ | ⟨next, rest⟩⟩
      · rw [resume, connectHandler_of_stopped (stopped' s.serverSocket (some ec))] at h
        · exact Or.inr ⟨_, (some ec), (congrArg Socket.trace (Except.ok.inj h)).symm⟩
        · simp
      · rw [resume, connectHandler_of_stopped (stopped' s.serverSocket (some ec))] at h
        · exact Or.inr ⟨_, (some ec), (congrArg Socket.trace (Except.ok.inj h)).symm⟩
        · simp
      · exact Or.inl (congrArg Socket.trace (Except.ok.inj h)).symm
  | write side k rest =>
    have stopped' : ∀ rest ec, (s.finish (.write side k rest) ec).stopped = true := fun _ _ => stopped
    cases c with
    | success data endpoints =>
      simp only [resume] at h
      split at h
      · rw [writeHandler_of_stopped (stopped' _ none)] at h
        exact Or.inr ⟨_, none, (congrArg Socket.trace (Except.ok.inj h)).symm⟩
      · exact Or.inl (congrArg Socket.trace (Except.ok.inj h)).symm
    | failure ec =>
      rw [resume, writeHandler_of_stopped (stopped' _ (some ec))] at h
      exact Or.inr ⟨_, (some ec), (congrArg Socket.trace (Except.ok.inj h)).symm⟩

/-- A complete body starts the resolution of the host or a write, in any session. -/
theorem callback_starts (s : Socket) (side : Side) (k : Nat) :
    ∃ op, (s.callback side k).trace = .start op :: s.trace := by
  cases side
  · rcases callback_client_cases s k with h | ⟨-, -, h⟩
    · exact ⟨_, (congrArg Socket.trace h).trans rfl⟩
    · exact ⟨_, (congrArg Socket.trace h).trans rfl⟩
  · exact ⟨_, rfl⟩

end Socket

/-! ### Runs -/

/-- The flag is set exactly when the stop is on the log. -/
def Flagged (s : Socket) : Prop := .stop ∈ s.trace ↔ s.stopped = true

theorem Flagged.close {s : Socket} (h : Flagged s) : Flagged s.close := by
  cases hs : s.stopped
  · rw [Socket.close_of_not_stopped hs]
    exact iff_of_true List.mem_cons_self rfl
  · rw [Socket.close_of_stopped hs]
    exact h

theorem Flagged.step {s t : Socket} {e : Event} (h : Flagged s) (c : Chain s) (hs : session.Step s e t) :
    Flagged t := by
  cases c.move hs with
  | io => exact (stop_mem_append shows_passive).trans h
  | @dispatch op q t ho hr =>
    rcases Socket.resume_outcome rfl hr with ⟨-, -, htr, hst, -⟩ | ⟨op', ec, -, out⟩
    · unfold Flagged
      rw [htr, hst]
      exact h
    · cases out with
      | returns hn htr hst =>
        unfold Flagged
        rw [htr, hst, stop_mem_append hn, stop_mem_finish]
        exact h
      | closes hn htr _ hst =>
        unfold Flagged
        rw [htr, hst]
        exact iff_of_true List.mem_cons_self rfl
      | starts hn htr hst =>
        unfold Flagged
        rw [htr, hst, List.mem_cons, stop_mem_append hn, stop_mem_finish]
        exact (or_iff_right fun he => by cases he).trans h
  | close => exact h.close
  | @wait ec queue =>
    unfold Flagged
    rcases Socket.handleWait_log { s with timer := { s.timer with queue := queue } } ec with
      ⟨htr, hst, -⟩ | ⟨-, -, htr, hst, -⟩ | ⟨hrun, -, htr, hst, -⟩ <;> rw [htr, hst]
    · exact h
    · exact iff_of_true List.mem_cons_self rfl
    · have hstop : .stop ∉ s.trace := fun hmem => absurd (hrun.symm.trans (h.mp hmem)) Bool.false_ne_true
      exact iff_of_false (fun hmem => hstop (by simpa using hmem)) Bool.false_ne_true
  | expire | elapse | disconnect => exact h

theorem reachable_flagged {s : Socket} (h : session.Reachable s) : Flagged s := by
  refine h.invariant (fun s ⟨now, hs⟩ => ?_) fun _ _ _ hr hf hs => hf.step (reachable_chain hr) hs
  rw [hs]
  exact iff_of_false (by simp [Socket.start, Socket.new, Socket.getMessageFromClient]) nofun

/-- The end of an operation in a stopped session starts nothing exactly when it is no complete body. -/
theorem resume_final_iff {s t : Socket} {op : Op} {c : Completion} (flagged : Flagged s) (stopped : s.stopped = true)
    (h : s.resume op c = .ok t) : Always Final t.trace ↔ Always Final s.trace ∧ op.Quiet s c := by
  by_cases quiet : op.Quiet s c
  · refine Iff.trans ?_ (and_iff_left quiet).symm
    rcases Socket.resume_of_stopped stopped quiet h with ht | ⟨op', ec, ht⟩ <;> rw [ht]
    exact always_final_finish
  · refine iff_of_false (fun final => ?_) fun hc => quiet hc.2
    -- What is not quiet is the end of a body, whose handler calls back.
    rcases op with _ | ⟨side, k, limit, httpBody⟩ | _ | _ | _ <;> try exact quiet trivial
    rcases c with ⟨data, endpoints⟩ | ec <;> try exact quiet trivial
    have complete : Socket.bodyDone limit (httpBody ++ data) = true := by
      by_contra hne
      exact quiet fun _ => Bool.eq_false_iff.mpr hne
    simp only [Socket.resume, complete, ↓reduceIte] at h
    obtain ⟨op', hstart⟩ := Socket.callback_starts
      ((s.finish (.readBody side k limit (httpBody ++ data)) none).append side k (httpBody ++ data)) side k
    rw [← Except.ok.inj h, hstart] at final
    have hmem : .stop ∈ s.trace := flagged.mpr stopped
    exact (final.1 (List.mem_cons_of_mem _ hmem)).2 op' rfl

theorem step_final_iff {s t : Socket} {e : Event} (hr : session.Reachable s) (hs : session.Step s e t) :
    Always Final t.trace ↔ Always Final s.trace ∧ Quiet s e := by
  have flagged := reachable_flagged hr
  cases (reachable_chain hr).move hs with
  | io => exact (always_final_append shows_passive).trans (and_iff_left trivial).symm
  | @dispatch op q t ho hres =>
    have quiet_iff : Quiet s (.dispatch 0) ↔ op.Quiet s q := by
      constructor
      · intro quiet
        exact quiet op q (by rw [ho]; rfl)
      · intro quiet op' q' ho'
        rw [ho] at ho'
        cases Option.some.inj ho'
        exact quiet
    rw [quiet_iff]
    cases running : s.stopped with
    | true => exact resume_final_iff (s := { s with outstanding := [] }) flagged running hres
    | false =>
      have nostop : .stop ∉ s.trace := fun hmem => absurd (running.symm.trans (flagged.mp hmem)) Bool.false_ne_true
      have quiet : op.Quiet s q := by
        cases op <;> cases q <;> first | trivial | exact fun hs => by rw [running] at hs; cases hs
      rw [and_iff_left quiet]
      rcases Socket.resume_outcome rfl hres with ⟨-, -, htr, -, -⟩ | ⟨op', ec, -, out⟩
      · rw [htr]
      · cases out with
        | returns hn htr => rw [htr, always_final_append hn, always_final_finish]
        | closes hn htr =>
          rw [htr, always_cons, always_final_append hn, always_final_finish]
          exact and_iff_right fun _ => ⟨nofun, fun _ => nofun⟩
        | starts hn htr =>
          rw [htr, always_cons, always_final_append hn, always_final_finish]
          exact and_iff_right fun hmem => absurd (stop_mem_finish.mp ((stop_mem_append hn).mp hmem)) nostop
  | close =>
    refine Iff.trans ?_ (and_iff_left trivial).symm
    cases running : s.stopped with
    | true => rw [Socket.close_of_stopped running]
    | false =>
      rw [Socket.close_of_not_stopped running]
      exact and_iff_right fun _ => ⟨nofun, fun _ => nofun⟩
  | @wait ec queue =>
    refine Iff.trans ?_ (and_iff_left trivial).symm
    rcases Socket.handleWait_log { s with timer := { s.timer with queue := queue } } ec with
      ⟨htr, -⟩ | ⟨-, -, htr, -⟩ | ⟨running, -, htr, -⟩ <;> rw [htr]
    · rw [always_cons, always_cons]
      exact (and_iff_right fun _ => ⟨nofun, fun _ => nofun⟩).trans (and_iff_right fun _ => ⟨nofun, fun _ => nofun⟩)
    · rw [always_cons]
      exact and_iff_right fun hmem => absurd (running.symm.trans (flagged.mp hmem)) Bool.false_ne_true
  | expire | elapse | disconnect => exact (and_iff_left trivial).symm

/-- The log holds the stop exactly when the session is stopped, and in a run nothing is started after it exactly
    when every completion is quiet. -/
theorem stop_is_final {s₀ t : Socket} {ps : List (Socket × Event)} (init : session.Init s₀)
    (run : session.Run s₀ ps t) :
    (.stop ∈ t.trace ↔ t.stopped = true) ∧ (Always Final t.trace ↔ ∀ p ∈ ps, Quiet p.1 p.2) := by
  refine ⟨reachable_flagged (run.reachable init), ?_⟩
  refine run.iff_forall_steps init ?_ fun s e t hr hs => step_final_iff hr hs
  obtain ⟨now, rfl⟩ := init
  have nostop : .stop ∉ [Action.wait] := by simp
  exact ⟨fun hmem => absurd hmem nostop, fun hmem => absurd hmem List.not_mem_nil, trivial⟩

/-- A request whose body is one byte. -/
def oneByte : Bytes := ascii "POST / HTTP/1.1\r\nHost: a\r\nContent-Length: 1\r\n\r\n"

/-- Its header is handled, its body received, and the session closed before the handler of the body runs. -/
def closedBody : List Event :=
  [.io 0 (.success oneByte []), .dispatch 0, .io 0 (.success (ascii "x") []), .close, .dispatch 0]

def afterClosedBody : Socket := (session.exec (Socket.new 0).start closedBody).getD (Socket.new 0).start

theorem closedBody_run :
    session.Run (Socket.new 0).start (session.trail (Socket.new 0).start closedBody) afterClosedBody := by
  refine .of_exec ?_
  decide +kernel

theorem closedBody_not_final : ¬Always Final afterClosedBody.trace := by
  intro final
  have resumed : ∃ older, afterClosedBody.trace = .start (.resolve 0 (ascii "a")) :: older ∧ .stop ∈ older :=
    ⟨afterClosedBody.trace.tail, by decide +kernel, by decide +kernel⟩
  obtain ⟨older, htr, hmem⟩ := resumed
  rw [htr] at final
  exact (final.1 hmem).2 _ rfl

theorem stop_is_final_closedBody : ¬∀ p ∈ session.trail (Socket.new 0).start closedBody, Quiet p.1 p.2 := by
  intro quiet
  exact closedBody_not_final ((stop_is_final ⟨0, rfl⟩ closedBody_run).2.mpr quiet)

theorem started_after_stop : ¬∀ s, session.Reachable s → Always Final s.trace := by
  intro final
  exact closedBody_not_final (final _ (closedBody_run.reachable ⟨0, rfl⟩))

end HttpProxy
