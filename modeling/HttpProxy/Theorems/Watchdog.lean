import HttpProxy.Theorems.Timeout

/-! The watchdog. As long as a session is not stopped, a wait on its timer is to bring it before `handle_wait`. A
    cancelled wait is renewed there, an expired one closes the session, unless the client has disconnected: then
    the exception of `remote_endpoint` is caught before `close` is called, and nothing waits any more. -/

namespace HttpProxy
open Log Search

/-- The waits on a timer, those that are pending and those whose completion is queued. -/
def Timer.waits (t : Timer) : Nat := t.pending + t.queue.length

@[simp] theorem Timer.asyncWait_waits (t : Timer) : t.asyncWait.waits = t.waits + 1 := by
  simp only [waits, asyncWait]
  omega

@[simp] theorem Timer.cancel_waits (t : Timer) : t.cancel.waits = t.waits := by
  simp only [waits, cancel, List.length_append, List.length_replicate]
  omega

@[simp] theorem Timer.expire_waits (t : Timer) : t.expire.waits = t.waits := by
  simp only [waits, expire, List.length_append, List.length_replicate]
  omega

/-- Time passes promptly, or the timer expires. -/
def Ticking (s : Socket) (e : Event) : Prop := (e = .expire ∨ ∃ d, 0 < d ∧ e = .elapse d) ∧ Prompt s e

/-- A session that is not stopped has exactly one wait on its timer, which comes before `handle_wait`. -/
def Watched (s : Socket) : Prop :=
  s.stopped = false → s.timer.waits = 1 ∧ session.Attains Ticking (fun t => ∃ u, session.Step t .wait u) s

/-- An event that does not run the handler of an expired wait in a running session whose client has gone. -/
def Guarded (s : Socket) : Event → Prop
  | .wait => s.timer.queue.head? = some none → s.stopped = false → s.clientConnected = true
  | _ => True

/-- A single wait comes before `handle_wait`: it is queued, or time passes up to the expiry. -/
theorem attains_wait {s : Socket} (h : s.timer.waits = 1) :
    session.Attains Ticking (fun t => ∃ u, session.Step t .wait u) s := by
  have waits_of_queue : ∀ {s : Socket}, s.timer.queue ≠ [] → ∃ u, session.Step s .wait u := by
    intro s hq
    obtain ⟨ec, queue, hq⟩ := List.exists_cons_of_ne_nil hq
    exact ⟨_, by rw [session_step, Socket.step, hq]⟩
  have pending : ∀ {s : Socket}, s.timer.waits = 1 → (¬∃ u, session.Step s .wait u) →
      s.timer.queue = [] ∧ s.timer.pending = 1 := by
    intro s hw hg
    have hq : s.timer.queue = [] := not_not.mp fun hq => hg (waits_of_queue hq)
    rw [Timer.waits, hq, List.length_nil] at hw
    exact ⟨hq, hw⟩
  refine .of_measure (I := fun s => s.timer.waits = 1) (fun s => s.timer.expiry - s.now) h
    (fun s hw hg => ?_) (fun s e _ _ he hf => ?_) fun s e t hw hg he hs => ?_
  · obtain ⟨hq, hp⟩ := pending hw hg
    by_cases hx : s.timer.expiry ≤ s.now
    · exact ⟨.expire, .ok _, ⟨Or.inl rfl, trivial⟩, if_pos ⟨by omega, hx⟩⟩
    · exact ⟨.elapse 1, .ok _, ⟨Or.inr ⟨1, Nat.one_pos, rfl⟩, hq, fun _ => by omega⟩, rfl⟩
  · obtain ⟨f, hf⟩ := hf
    rcases he.1 with rfl | ⟨d, -, rfl⟩
    · obtain ⟨-, -, ht⟩ := Socket.step_expire hf
      cases ht
    · cases hf
  · obtain ⟨hq, hp⟩ := pending hw hg
    obtain ⟨rfl | ⟨d, hd, rfl⟩, prompt⟩ := he
    · obtain ⟨-, -, ht⟩ := Socket.step_expire hs
      rw [Except.ok.inj ht]
      exact Or.inl (waits_of_queue (by simp [Timer.expire, hp]))
    · rw [← Except.ok.inj (Option.some.inj hs)]
      have ahead : s.now + d ≤ s.timer.expiry := prompt.2 (by omega)
      refine Or.inr ⟨hw, ?_⟩
      dsimp only
      omega

theorem watched_iff {s : Socket} : Watched s ↔ (s.stopped = false → s.timer.waits = 1) :=
  ⟨fun h running => (h running).1, fun h running => ⟨h running, attains_wait (h running)⟩⟩

/-- A session watches on when its waits stay as many. -/
theorem Watched.frame {s t : Socket} (h : Watched s) (hs : s.stopped = true → t.stopped = true)
    (hw : t.timer.waits = s.timer.waits) : Watched t := by
  refine watched_iff.mpr fun running => ?_
  rw [hw]
  refine watched_iff.mp h ?_
  cases stopped : s.stopped
  · rfl
  · rw [hs stopped] at running
    cases running

/-! ### The completions of the timer -/

/-- A wait completes at the expiry or because it is cancelled. -/
def Timer.Plain (t : Timer) : Prop := ∀ ec ∈ t.queue, ec = none ∨ ec = some .operationAborted

theorem Timer.Plain.cancel {t : Timer} (h : t.Plain) : t.cancel.Plain := by
  intro ec hec
  rcases List.mem_append.mp hec with hec | hec
  · exact h ec hec
  · exact Or.inr (List.eq_of_mem_replicate hec)

theorem Timer.Plain.expire {t : Timer} (h : t.Plain) : t.expire.Plain := by
  intro ec hec
  rcases List.mem_append.mp hec with hec | hec
  · exact h ec hec
  · exact Or.inl (List.eq_of_mem_replicate hec)

theorem reachable_plain {s : Socket} (h : session.Reachable s) : s.timer.Plain := by
  refine h.invariant (I := fun s => s.timer.Plain) ?_ ?_
  · rintro s ⟨now, rfl⟩
    exact fun _ => nofun
  · intro s e t hr plain hs
    cases (reachable_chain hr).move hs with
    | dispatch ho hres =>
      rcases Socket.resume_timer (s := { s with outstanding := [] }) rfl hres with htm | htm <;> rw [htm]
      · exact plain
      · exact plain.cancel
    | close =>
      cases running : s.stopped
      · rw [Socket.close_of_not_stopped running]
        exact plain.cancel
      · rw [Socket.close_of_stopped running]
        exact plain
    | @wait ec queue hq =>
      have rest : Timer.Plain { s.timer with queue := queue } := fun ec hec =>
        plain ec (by rw [hq]; exact List.mem_cons_of_mem _ hec)
      rcases Socket.handleWait_log { s with timer := { s.timer with queue := queue } } ec with
        ⟨-, -, htm⟩ | ⟨-, -, -, -, htm⟩ | ⟨-, -, -, -, htm⟩ <;> rw [htm]
      · exact rest
      · exact rest.cancel
      · exact rest
    | expire => exact plain.expire
    | io | elapse | disconnect => exact plain

/-! ### Runs -/

/-- The handler of the timer keeps the watch unless it finds that the client has gone. -/
theorem handleWait_watched_iff {s : Socket} {ec : Option ErrorCode} (h : s.stopped = false → s.timer.waits = 0)
    (hec : ec = none ∨ ec = some .operationAborted) :
    Watched (s.handleWait ec) ↔ (ec = none → s.stopped = false → s.clientConnected = true) := by
  cases running : s.stopped with
  | true =>
    have same : s.handleWait ec = s := if_pos running
    rw [same]
    exact iff_of_true (fun hs => absurd (running.symm.trans hs) Bool.true_eq_false.mp) fun _ hs => by cases hs
  | false =>
    rcases hec with rfl | rfl
    · cases connected : s.clientConnected with
      | true =>
        have closes : s.handleWait none = (s.log (.timedOut s.now)).close := by
          simp [Socket.handleWait, running, connected]
        rw [closes]
        refine iff_of_true (fun hs => ?_) fun _ _ => rfl
        rw [Socket.close_stopped] at hs
        cases hs
      | false =>
        -- The exception of `remote_endpoint` keeps `close` from being called.
        have same : s.handleWait none = s := by simp [Socket.handleWait, running, connected]
        rw [same, watched_iff, h running]
        exact iff_of_false (fun hw => absurd (hw running) Nat.zero_ne_one) fun hc => by cases hc rfl rfl
    · have again : s.handleWait (some .operationAborted) = s.asyncWait := by simp [Socket.handleWait, running]
      rw [again, watched_iff]
      exact iff_of_true (fun _ => by simp [h running]) nofun

theorem step_watched_iff {s t : Socket} {e : Event} (hr : session.Reachable s) (watched : Watched s)
    (hs : session.Step s e t) : Watched t ↔ Guarded s e := by
  cases (reachable_chain hr).move hs with
  | dispatch ho hres =>
    refine iff_of_true (watched.frame (fun stopped => ?_) ?_) trivial
    · exact Socket.resume_stopped (s := { s with outstanding := [] }) rfl stopped hres
    · rcases Socket.resume_timer (s := { s with outstanding := [] }) rfl hres with htm | htm <;> rw [htm]
      exact Timer.cancel_waits _
  | close =>
    refine iff_of_true (fun running => ?_) trivial
    rw [Socket.close_stopped] at running
    cases running
  | @wait ec queue hq =>
    have single : s.stopped = false → ({ s.timer with queue := queue } : Timer).waits = 0 := by
      intro running
      have hw := watched_iff.mp watched running
      rw [Timer.waits, hq, List.length_cons] at hw
      simp only [Timer.waits]
      omega
    have plain := reachable_plain hr ec (by rw [hq]; exact List.mem_cons_self)
    rw [handleWait_watched_iff single plain, Guarded, hq, List.head?_cons, Option.some.injEq]
  | expire => exact iff_of_true (watched.frame id (Timer.expire_waits _)) trivial
  | io | elapse | disconnect => exact iff_of_true (watched.frame id rfl) trivial

/-- Every state of a run is watched exactly when no step of it finds at the expiry that the client has gone. -/
theorem watchdog_kept {s₀ t : Socket} {ps : List (Socket × Event)} (init : session.Init s₀)
    (run : session.Run s₀ ps t) : (∀ p ∈ ps, Watched p.1) ∧ Watched t ↔ ∀ p ∈ ps, Guarded p.1 p.2 := by
  refine Machine.Run.forall_states_iff init ?_ (fun s e t hr hw hs => step_watched_iff hr hw hs) run
  obtain ⟨now, rfl⟩ := init
  exact watched_iff.mpr fun _ => rfl

/-- The client disconnects while the host of its request is being resolved, and the timer expires. -/
def lostClient : List Event :=
  [.io 0 (.success sampleRequest []), .dispatch 0, .wait, .disconnect, .elapse timeout, .expire, .wait]

def afterLostClient : Socket := (session.exec (Socket.new 0).start lostClient).getD (Socket.new 0).start

theorem lostClient_run :
    session.Run (Socket.new 0).start (session.trail (Socket.new 0).start lostClient) afterLostClient := by
  refine .of_exec ?_
  decide +kernel

theorem afterLostClient_not_watched : afterLostClient.stopped = false ∧ afterLostClient.timer.waits = 0 := by
  decide +kernel

theorem watchdog_kept_lostClient :
    ¬∀ p ∈ session.trail (Socket.new 0).start lostClient, Guarded p.1 p.2 := by
  intro guarded
  have watched := ((watchdog_kept ⟨0, rfl⟩ lostClient_run).mpr guarded).2
  have single := (watched afterLostClient_not_watched.1).1
  rw [afterLostClient_not_watched.2] at single
  cases single

theorem watchdog_lost : ¬∀ s, session.Reachable s → s.stopped = false → s.timer.waits = 1 := by
  intro kept
  have single := kept _ (lostClient_run.reachable ⟨0, rfl⟩) afterLostClient_not_watched.1
  rw [afterLostClient_not_watched.2] at single
  cases single

end HttpProxy
