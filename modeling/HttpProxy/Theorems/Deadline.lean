import HttpProxy.Theorems.Watchdog

/-! The deadline. The expiry of the timer is set once, and the watch over it is not lost while the client is there.
    So a session whose client stays is over a fixed time after its construction, however busy it is. -/

namespace HttpProxy
open Log Search

/-- Time passes promptly, the timer expires, or a completion of the timer is run. -/
def Timed (s : Socket) (e : Event) : Prop := Ticking s e ∨ e = .wait

theorem step_connected {s t : Socket} {e : Event} (c : Chain s) (hs : session.Step s e t)
    (connected : t.clientConnected = true) : s.clientConnected = true := by
  cases c.move hs with
  | dispatch ho hr => exact (Socket.resume_clientConnected hr).symm.trans connected
  | close => exact Socket.close_clientConnected.symm.trans connected
  | wait =>
    rw [Socket.handleWait_clientConnected] at connected
    exact connected
  | disconnect => cases connected
  | io | expire | elapse => exact connected

/-- The watch is not lost while the client is there. -/
theorem run_watched {s₀ t : Socket} {ps : List (Socket × Event)} (init : session.Init s₀)
    (run : session.Run s₀ ps t) (connected : t.clientConnected = true) : Watched t := by
  induction run with
  | nil =>
    obtain ⟨now, rfl⟩ := init
    exact watched_iff.mpr fun _ => rfl
  | @step ps s t e hr hs ih =>
    have reached := hr.reachable init
    have here := step_connected (reachable_chain reached) hs connected
    refine (step_watched_iff reached (ih here) hs).mpr ?_
    cases e with
    | wait => exact fun _ _ => here
    | io | dispatch | expire | close | elapse | disconnect => trivial

theorem run_expiry {s₀ t : Socket} {ps : List (Socket × Event)} (init : session.Init s₀)
    (run : session.Run s₀ ps t) : t.timer.expiry = s₀.timer.expiry := by
  induction run with
  | nil => rfl
  | step hr hs ih => exact (step_expiry (reachable_chain (hr.reachable init)) hs).trans ih

/-- How far a watched timer is from closing its session: the time left, and whether its one wait is aborted, is
    pending or is over. -/
def Timer.distance (w : Timer) (now : Nat) : Nat :=
  3 * (w.expiry - now) + match w.queue with
    | some _ :: _ => 2
    | none :: _ => 0
    | [] => 1

/-- A running session whose timer is watched and whose client is there. -/
structure Guard (s : Socket) : Prop where
  running : s.stopped = false
  connected : s.clientConnected = true
  watched : s.timer.waits = 1
  plain : s.timer.Plain

/-- Its one wait is pending, or its completion is queued. -/
theorem Guard.cases {s : Socket} (h : Guard s) : (s.timer.queue = [] ∧ s.timer.pending = 1) ∨
    s.timer.pending = 0 ∧ (s.timer.queue = [none] ∨ s.timer.queue = [some .operationAborted]) := by
  have waits := h.watched
  rw [Timer.waits] at waits
  rcases hq : s.timer.queue with _ | ⟨ec, _ | ⟨ec', queue⟩⟩
  · rw [hq, List.length_nil] at waits
    exact Or.inl ⟨rfl, waits⟩
  · rw [hq, List.length_singleton] at waits
    refine Or.inr ⟨by omega, ?_⟩
    rcases h.plain ec (by rw [hq]; exact List.mem_singleton_self _) with rfl | rfl
    · exact Or.inl rfl
    · exact Or.inr rfl
  · rw [hq, List.length_cons, List.length_cons] at waits
    omega

/-- Left to the time and its timer, a watched session is closed. -/
theorem Guard.attains {s : Socket} (h : Guard s) : session.Attains Timed (fun t => t.stopped = true) s := by
  refine .of_measure (I := Guard) (fun s => s.timer.distance s.now) h (fun s h _ => ?_) (fun s e _ _ he hf => ?_)
    fun s e t h _ he hs => ?_
  · rcases h.cases with ⟨hq, hp⟩ | ⟨-, hq | hq⟩
    · by_cases hx : s.timer.expiry ≤ s.now
      · exact ⟨.expire, .ok _, Or.inl ⟨Or.inl rfl, trivial⟩, if_pos ⟨by omega, hx⟩⟩
      · exact ⟨.elapse 1, .ok _, Or.inl ⟨Or.inr ⟨1, Nat.one_pos, rfl⟩, hq, fun _ => by omega⟩, rfl⟩
    · exact ⟨.wait, _, Or.inr rfl, by rw [session_step_eq, Socket.step, hq]⟩
    · exact ⟨.wait, _, Or.inr rfl, by rw [session_step_eq, Socket.step, hq]⟩
  · obtain ⟨f, hf⟩ := hf
    rcases he with ⟨rfl | ⟨d, -, rfl⟩, -⟩ | rfl
    · obtain ⟨-, -, ht⟩ := Socket.step_expire hf
      cases ht
    · cases hf
    · obtain ⟨ec, queue, -, ht⟩ := Socket.step_wait hf
      cases ht
  · rcases he with ⟨rfl | ⟨d, hd, rfl⟩, prompt⟩ | rfl
    · obtain ⟨hp, hx, ht⟩ := Socket.step_expire hs
      cases ht
      refine Or.inr ⟨⟨h.running, h.connected, (Timer.expire_waits _).trans h.watched, h.plain.expire⟩, ?_⟩
      rcases h.cases with ⟨hq, hp'⟩ | ⟨hp', -⟩
      · simp [Timer.distance, Timer.expire, hq, hp', hx]
      · omega
    · have hq : s.timer.queue = [] := prompt.1
      have hp : s.timer.pending = 1 := by
        have waits := h.watched
        rwa [Timer.waits, hq] at waits
      have ahead : s.now + d ≤ s.timer.expiry := prompt.2 (by omega)
      cases hs
      refine Or.inr ⟨⟨h.running, h.connected, h.watched, h.plain⟩, ?_⟩
      simp only [Timer.distance, hq]
      omega
    · obtain ⟨ec, queue, hq, ht⟩ := Socket.step_wait hs
      rw [Except.ok.inj ht]
      rcases h.cases with ⟨hq', -⟩ | ⟨hp, hq' | hq'⟩ <;> cases hq.symm.trans hq'
      · left
        simp [Socket.handleWait, h.running, h.connected]
      · right
        have again : ({ s with timer := { s.timer with queue := [] } } : Socket).handleWait (some .operationAborted) =
            ({ s with timer := { s.timer with queue := [] } } : Socket).asyncWait := by
          simp [Socket.handleWait, h.running]
        rw [again]
        refine ⟨⟨h.running, h.connected, ?_, fun ec hec => absurd hec List.not_mem_nil⟩, ?_⟩
        · simp [Timer.waits, Timer.asyncWait, hp]
        · simp [Timer.distance, Timer.asyncWait, hq]

/-- In a timed run the time does not pass the deadline of a session that is watched, and its timer closes it at the
    deadline and at no other time. -/
theorem run_timed {now : Nat} {t : Socket} {ps : List (Socket × Event)}
    (run : session.Run (Socket.new now).start ps t) (prompt : ∀ p ∈ ps, Prompt p.1 p.2) :
    (t.stopped = false → t.clientConnected = true → t.now ≤ now + timeout) ∧
    ∀ time, .timedOut time ∈ t.trace → time = now + timeout := by
  have init : session.Init (Socket.new now).start := ⟨now, rfl⟩
  have timed := run.within init prompt
  have expiry : t.timer.expiry = now + timeout := run_expiry init run
  refine ⟨fun running connected => ?_, fun time hm => (within_struck timed hm).trans expiry⟩
  have watched := (run_watched init run connected running).1
  have busy : t.timer.Busy := by
    rw [Timer.waits] at watched
    by_cases hq : t.timer.queue = []
    · rw [hq, List.length_nil] at watched
      exact Or.inl (by omega)
    · exact Or.inr hq
  exact expiry ▸ (within_clocked timed).ahead busy

/-- In a timed run, in which time passes neither an expiry that is waited for nor a completion of the timer that is
    queued, a session lives no longer than the timeout, whatever its peers send in between: as long as it is not stopped
    and its client is there, the deadline is not passed, and left to the time and its timer it is closed; the timer
    closes it at the deadline and at no other time. -/
theorem deadline {now : Nat} {t : Socket} {ps : List (Socket × Event)}
    (run : session.Run (Socket.new now).start ps t) (prompt : ∀ p ∈ ps, Prompt p.1 p.2) :
    (t.stopped = false → t.clientConnected = true →
      t.now ≤ now + timeout ∧ session.Attains Timed (fun u => u.stopped = true) t) ∧
    ∀ time, .timedOut time ∈ t.trace → time = now + timeout := by
  obtain ⟨ahead, fixed⟩ := run_timed run prompt
  refine ⟨fun running connected => ⟨ahead running connected, ?_⟩, fixed⟩
  have init : session.Init (Socket.new now).start := ⟨now, rfl⟩
  have watched := (run_watched init run connected running).1
  have guard : Guard t := ⟨running, connected, watched, reachable_plain (run.reachable init)⟩
  exact guard.attains

/-- The late request has come, and the timer is waited for again. -/
def requestHandled : Socket := (session.exec (Socket.new 0).start (lateRequest.take 4)).getD (Socket.new 0).start

theorem deadline_sample : requestHandled.now = 10 * 10 ^ 9 ∧
    session.Attains Timed (fun u => u.stopped = true) requestHandled := by
  have run : session.Run (Socket.new 0).start (session.trail (Socket.new 0).start (lateRequest.take 4))
      requestHandled := by
    refine .of_exec ?_
    decide +kernel
  have prompt : ∀ p ∈ session.trail (Socket.new 0).start (lateRequest.take 4), Prompt p.1 p.2 := by
    decide +kernel
  have running : requestHandled.stopped = false := by decide +kernel
  have connected : requestHandled.clientConnected = true := by decide +kernel
  obtain ⟨-, closed⟩ := (deadline run prompt).1 running connected
  exact ⟨by decide +kernel, closed⟩

end HttpProxy
