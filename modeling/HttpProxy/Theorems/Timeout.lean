import HttpProxy.Theorems.Stop

/-! The timeout. The expiry of the timer is set once, at construction: to cancel a wait and to wait again leaves
    it where it is. So a session is closed a fixed time after its construction, whatever came in between. -/

namespace HttpProxy
open Log Search

/-- The timer closes the session only when no request header was completed for a whole timeout. -/
def IdleTimeout (a : Action) (older : List Action) : Prop :=
  ∀ time k u, a = .timedOut time → .finish (.readHeader .client k) none u ∈ older → u + timeout ≤ time

/-- An event that does not complete a request header in a running session, or does so when a whole timeout is
    left until the expiry. -/
def Unhurried (s : Socket) : Event → Prop
  | .dispatch i => ∀ k data endpoints,
    s.outstanding[i]? = some ⟨.readHeader .client k, some (.success data endpoints)⟩ →
    (find? headerEnd ((s.append .client k data).message .client k)).isSome = true → s.stopped = false →
    s.now + timeout ≤ s.timer.expiry
  | _ => True

/-- Time does not pass an expiry that is waited for, nor a completion of the timer that is queued. -/
def Prompt (s : Socket) : Event → Prop
  | .elapse d => s.timer.queue = [] ∧ (0 < s.timer.pending → s.now + d ≤ s.timer.expiry)
  | _ => True

instance (s : Socket) (e : Event) : Decidable (Prompt s e) :=
  match e with
  | .elapse d => inferInstanceAs (Decidable (_ ∧ (0 < s.timer.pending → s.now + d ≤ s.timer.expiry)))
  | .io _ _ | .dispatch _ | .expire | .wait | .close | .disconnect => isTrue trivial

@[simp] theorem Timer.asyncWait_expiry (t : Timer) : t.asyncWait.expiry = t.expiry := rfl
@[simp] theorem Timer.cancel_expiry (t : Timer) : t.cancel.expiry = t.expiry := rfl
@[simp] theorem Timer.expire_expiry (t : Timer) : t.expire.expiry = t.expiry := rfl

/-- No step moves the expiry. -/
theorem step_expiry {s t : Socket} {e : Event} (c : Chain s) (hs : session.Step s e t) :
    t.timer.expiry = s.timer.expiry := by
  cases c.move hs with
  | dispatch ho hr =>
    rcases Socket.resume_timer (s := { s with outstanding := [] }) rfl hr with htm | htm <;> rw [htm]
    rfl
  | close =>
    cases hs : s.stopped
    · rw [Socket.close_of_not_stopped hs]
      rfl
    · rw [Socket.close_of_stopped hs]
  | @wait ec queue =>
    rcases Socket.handleWait_log { s with timer := { s.timer with queue := queue } } ec with
      ⟨-, -, htm⟩ | ⟨-, -, -, -, htm⟩ | ⟨-, -, -, -, htm⟩ <;> rw [htm] <;> rfl
  | io | expire | elapse | disconnect => rfl

/-- A wait is pending, or its completion is queued. -/
def Timer.Busy (w : Timer) : Prop := 0 < w.pending ∨ w.queue ≠ []

theorem Timer.cancel_queue {w : Timer} (h : none ∈ w.cancel.queue) : none ∈ w.queue := by
  rcases List.mem_append.mp h with h | h
  · exact h
  · exact absurd (List.eq_of_mem_replicate h) nofun

theorem Timer.cancel_busy {w : Timer} (h : w.cancel.Busy) : w.Busy := by
  rcases h with h | h
  · exact absurd h (Nat.lt_irrefl 0)
  · by_cases hp : 0 < w.pending
    · exact Or.inl hp
    · have : w.pending = 0 := by omega
      exact Or.inr (by simpa [Timer.cancel, this] using h)

/-- What a step does to the clock: nothing, or the handler of a wait that is over times the session out, or the waits
    are over, or time passes. -/
inductive Tick (s : Socket) : Event → Socket → Prop
  | keep {e : Event} {t : Socket} : t.now = s.now → (none ∈ t.timer.queue → none ∈ s.timer.queue) →
      (t.timer.Busy → s.timer.Busy) → (∀ time, .timedOut time ∈ t.trace → .timedOut time ∈ s.trace) → Tick s e t
  | strike {t : Socket} : none ∈ s.timer.queue → t.now = s.now →
      (∀ time, .timedOut time ∈ t.trace → time = s.now ∨ .timedOut time ∈ s.trace) → Tick s .wait t
  | expire : 0 < s.timer.pending → s.timer.expiry ≤ s.now → Tick s .expire { s with timer := s.timer.expire }
  | elapse (d : Nat) : Tick s (.elapse d) { s with now := s.now + d }

namespace Tick
variable {s t : Socket} {e : Event}

theorem timedOut_mem_append {newer older : List Action} {time : Nat} (h : ∀ a ∈ newer, a.Passive)
    (hm : .timedOut time ∈ newer ++ older) : .timedOut time ∈ older := by
  rcases List.mem_append.mp hm with hm | hm
  · exact (h _ hm).elim
  · exact hm

/-- A step that leaves the timer alone, or cancels it, and does not time the session out. -/
theorem frame (hn : t.now = s.now) (hw : t.timer = s.timer ∨ t.timer = s.timer.cancel)
    (ht : ∀ time, .timedOut time ∈ t.trace → .timedOut time ∈ s.trace) : Tick s e t := by
  rcases hw with hw | hw
  · exact .keep hn (fun h => hw ▸ h) (fun h => hw ▸ h) ht
  · exact .keep hn (fun h => Timer.cancel_queue (hw ▸ h)) (fun h => Timer.cancel_busy (hw ▸ h)) ht

theorem resume {op : Op} {c : Completion} (hr : { s with outstanding := [] }.resume op c = .ok t) : Tick s e t := by
  let between := { s with outstanding := [] }
  have hn : t.now = s.now := Socket.resume_now (s := between) rfl hr
  have hw : t.timer = s.timer ∨ t.timer = s.timer.cancel := Socket.resume_timer (s := between) rfl hr
  refine frame hn hw fun time hm => ?_
  rcases Socket.resume_outcome (s := between) rfl hr with ⟨-, -, htr, -⟩ | ⟨op', ec, -, out⟩
  · exact htr ▸ hm
  · have finished : .timedOut time ∈ (between.finish op' ec).trace → .timedOut time ∈ s.trace := by simp [between]
    cases out with
    | returns hn htr => exact finished (timedOut_mem_append hn (htr ▸ hm))
    | closes hn htr =>
      rw [htr] at hm
      exact finished (timedOut_mem_append hn (by simpa using hm))
    | starts hn htr =>
      rw [htr] at hm
      exact finished (timedOut_mem_append hn (by simpa using hm))

theorem close : Tick s e s.close := by
  cases running : s.stopped
  · rw [Socket.close_of_not_stopped running]
    exact frame rfl (Or.inr rfl) fun time hm => by simpa using hm
  · rw [Socket.close_of_stopped running]
    exact frame rfl (Or.inl rfl) fun _ hm => hm

/-- The handler of the timer, run for the first of the queued completions. -/
theorem handleWait {ec : Option ErrorCode} {queue : List (Option ErrorCode)} (hq : s.timer.queue = ec :: queue) :
    Tick s .wait ({ s with timer := { s.timer with queue := queue } }.handleWait ec) := by
  have busy : s.timer.Busy := Or.inr (by simp [hq])
  have taken : none ∈ queue → none ∈ s.timer.queue := fun hnone => hq ▸ List.mem_cons_of_mem _ hnone
  have hnow : ({ s with timer := { s.timer with queue := queue } }.handleWait ec).now = s.now := Socket.handleWait_now
  rcases Socket.handleWait_log { s with timer := { s.timer with queue := queue } } ec with
    ⟨htr, -, htm⟩ | ⟨-, rfl, htr, -, -⟩ | ⟨-, -, htr, -, htm⟩
  · refine .keep hnow (fun hnone => ?_) (fun _ => busy) fun _ hm => htr ▸ hm
    rw [htm] at hnone
    exact taken hnone
  · refine .strike (hq ▸ List.mem_cons_self) hnow fun time hm => ?_
    rw [htr] at hm
    simpa using hm
  · refine .keep hnow (fun hnone => ?_) (fun _ => busy) fun time hm => ?_
    · rw [htm] at hnone
      exact taken hnone
    · rw [htr] at hm
      simpa using hm

theorem of_step (c : Chain s) (hs : session.Step s e t) : Tick s e t := by
  cases c.move hs with
  | io => exact frame rfl (Or.inl rfl) fun time hm => timedOut_mem_append shows_passive hm
  | dispatch ho hr => exact resume hr
  | close => exact close
  | wait hq => exact handleWait hq
  | expire hpending hx => exact .expire hpending hx
  | elapse d => exact .elapse d
  | disconnect => exact frame rfl (Or.inl rfl) fun _ hm => hm

end Tick

/-- What is over is over at the expiry or later. -/
structure Due (s : Socket) : Prop where
  queued : none ∈ s.timer.queue → s.timer.expiry ≤ s.now
  struck : ∀ time, .timedOut time ∈ s.trace → s.timer.expiry ≤ time

theorem Due.step {s t : Socket} {e : Event} (h : Due s) (c : Chain s) (hs : session.Step s e t) : Due t := by
  have expiry := step_expiry c hs
  cases Tick.of_step c hs with
  | keep hnow hqueue _ htrace =>
    refine ⟨fun hnone => ?_, fun time hm => expiry ▸ h.struck time (htrace time hm)⟩
    rw [expiry, hnow]
    exact h.queued (hqueue hnone)
  | strike hnone hnow htrace =>
    have due := h.queued hnone
    refine ⟨fun _ => ?_, fun time hm => ?_⟩
    · rw [expiry, hnow]
      exact due
    · rw [expiry]
      rcases htrace time hm with rfl | hm
      · exact due
      · exact h.struck time hm
  | expire _ hx => exact ⟨fun _ => hx, h.struck⟩
  | elapse d => exact ⟨fun hnone => Nat.le_add_right_of_le (h.queued hnone), h.struck⟩

theorem start_unstruck (now time : Nat) : .timedOut time ∉ (Socket.new now).start.trace := by
  simp [Socket.start, Socket.new, Socket.getMessageFromClient]

theorem reachable_due {s : Socket} (h : session.Reachable s) : Due s := by
  refine h.invariant (fun s ⟨now, hs⟩ => ?_) fun _ _ _ hr hd hs => hd.step (reachable_chain hr) hs
  rw [hs]
  exact ⟨fun hnone => absurd hnone List.not_mem_nil, fun time hm => absurd hm (start_unstruck now time)⟩

/-- While time passes promptly, what waits or is queued waits or is queued no longer than until the expiry. -/
structure Clocked (s : Socket) : Prop where
  ahead : s.timer.Busy → s.now ≤ s.timer.expiry
  struck : ∀ time, .timedOut time ∈ s.trace → time ≤ s.timer.expiry

theorem Clocked.step {s t : Socket} {e : Event} (h : Clocked s) (c : Chain s) (hp : Prompt s e)
    (hs : session.Step s e t) : Clocked t := by
  have expiry := step_expiry c hs
  cases Tick.of_step c hs with
  | keep hnow _ hbusy htrace =>
    refine ⟨fun busy => ?_, fun time hm => expiry ▸ h.struck time (htrace time hm)⟩
    rw [expiry, hnow]
    exact h.ahead (hbusy busy)
  | strike hnone hnow htrace =>
    have ahead := h.ahead (Or.inr (List.ne_nil_of_mem hnone))
    refine ⟨fun _ => ?_, fun time hm => ?_⟩
    · rw [expiry, hnow]
      exact ahead
    · rw [expiry]
      rcases htrace time hm with rfl | hm
      · exact ahead
      · exact h.struck time hm
  | expire hpending _ => exact ⟨fun _ => h.ahead (Or.inl hpending), h.struck⟩
  | elapse d =>
    refine ⟨fun busy => ?_, h.struck⟩
    rcases busy with hpending | hqueue
    · exact hp.2 hpending
    · exact absurd hp.1 hqueue

theorem within_clocked {s : Socket} (h : session.Within Prompt s) : Clocked s := by
  refine h.invariant (fun s ⟨now, hs⟩ => ?_) fun _ _ _ hr hc hp hs => hc.step (reachable_chain hr.reachable) hp hs
  rw [hs]
  exact ⟨fun _ => Nat.le_add_right now timeout, fun time hm => absurd hm (start_unstruck now time)⟩

/-- While time passes promptly, the timer closes the session at the expiry. -/
theorem within_struck {s : Socket} (h : session.Within Prompt s) {time : Nat} (hm : .timedOut time ∈ s.trace) :
    time = s.timer.expiry :=
  Nat.le_antisymm ((within_clocked h).struck time hm) ((reachable_due h.reachable).struck time hm)

/-! ### The log of a timeout -/

/-- The session was running when it timed out, and was stopped right then. -/
structure Struck (log : List Action) : Prop where
  running : Always (fun a older => ∀ time, a = .timedOut time → .stop ∉ older) log
  stopped : Always (fun a older => ∀ time, older.head? = some (.timedOut time) → a = .stop) log
  done : ∀ time, log.head? ≠ some (.timedOut time)

namespace Struck
variable {log : List Action}

theorem cons (h : Struck log) {a : Action} (ha : ∀ time, a ≠ .timedOut time) : Struck (a :: log) where
  running := ⟨fun time he => absurd he (ha time), h.running⟩
  stopped := ⟨fun time he => absurd he (h.done time), h.stopped⟩
  done time he := ha time (Option.some.inj he)

theorem append (h : Struck log) {newer : List Action} (hn : ∀ a ∈ newer, a.Passive) : Struck (newer ++ log) := by
  induction newer with
  | nil => exact h
  | cons a newer ih =>
    refine (ih fun b hb => hn b (List.mem_cons_of_mem _ hb)).cons fun time he => ?_
    have passive := hn a List.mem_cons_self
    rw [he] at passive
    exact passive

theorem timedOut (h : Struck log) (hs : .stop ∉ log) (time : Nat) : Struck (.stop :: .timedOut time :: log) where
  running := ⟨fun _ => nofun, fun _ _ => hs, h.running⟩
  stopped := ⟨fun _ _ => rfl, fun time he => absurd he (h.done time), h.stopped⟩
  done _ := nofun

theorem step {s t : Socket} {e : Event} (h : Struck s.trace) (c : Chain s) (flagged : Flagged s)
    (hs : session.Step s e t) : Struck t.trace := by
  cases c.move hs with
  | io => exact h.append shows_passive
  | dispatch ho hr =>
    rcases Socket.resume_outcome rfl hr with ⟨-, -, htr, -⟩ | ⟨op', ec, -, out⟩
    · rw [htr]
      exact h
    · have finished : Struck (({ s with outstanding := [] } : Socket).finish op' ec).trace := h.cons fun _ => nofun
      cases out with
      | returns hn htr =>
        rw [htr]
        exact finished.append hn
      | closes hn htr =>
        rw [htr]
        exact (finished.append hn).cons fun _ => nofun
      | starts hn htr =>
        rw [htr]
        exact (finished.append hn).cons fun _ => nofun
  | close =>
    cases running : s.stopped
    · rw [Socket.close_of_not_stopped running]
      exact h.cons fun _ => nofun
    · rw [Socket.close_of_stopped running]
      exact h
  | @wait ec queue =>
    rcases Socket.handleWait_log { s with timer := { s.timer with queue := queue } } ec with
      ⟨htr, -⟩ | ⟨running, -, htr, -⟩ | ⟨-, -, htr, -⟩ <;> rw [htr]
    · exact h
    · exact h.timedOut (fun hm => absurd (running.symm.trans (flagged.mp hm)) Bool.false_ne_true) _
    · exact h.cons fun _ => nofun
  | expire | elapse | disconnect => exact h

end Struck

theorem reachable_struck {s : Socket} (h : session.Reachable s) : Struck s.trace := by
  refine Machine.Reachable.invariant (I := fun s => Struck s.trace) h (fun s ⟨now, hs⟩ => ?_)
    fun _ _ _ hr hk hs => Struck.step hk (reachable_chain hr) (reachable_flagged hr) hs
  rw [hs]
  have empty : Struck [] := ⟨trivial, trivial, fun _ => nofun⟩
  exact (empty.cons (by simp)).cons (by simp)

/-! ### The headers of a run -/

/-- A request header that was completed before the stop left a whole timeout until the expiry. -/
def Rested (expiry : Nat) (a : Action) (older : List Action) : Prop :=
  ∀ k u, a = .finish (.readHeader .client k) none u → .stop ∉ older → u + timeout ≤ expiry

theorem rested_cons {expiry : Nat} {a : Action} {log : List Action} (h : ∀ op ec u, a ≠ .finish op ec u) :
    Always (Rested expiry) (a :: log) ↔ Always (Rested expiry) log :=
  and_iff_right fun _ _ he => absurd he (h _ _ _)

theorem rested_append {expiry : Nat} {newer log : List Action} (h : ∀ a ∈ newer, a.Passive) :
    Always (Rested expiry) (newer ++ log) ↔ Always (Rested expiry) log := by
  refine always_append fun a ha older k u he => ?_
  have passive := h a ha
  rw [he] at passive
  exact passive.elim

/-- The handler of a request header is called without an error when a step completes the header. -/
theorem final_header_iff {s : Socket} {op : Op} {c : Completion} {side : Side} {k : Nat} :
    op.final s c = some (.readHeader side k, none) ↔ op = .readHeader side k ∧ ∃ data endpoints,
      c = .success data endpoints ∧ (find? headerEnd ((s.append side k data).message side k)).isSome = true := by
  cases op with
  | readHeader side' k' =>
    cases c with
    | success data endpoints =>
      simp only [Op.final]
      split
      · rename_i hfound
        constructor
        · intro he
          cases he
          exact ⟨rfl, data, endpoints, rfl, hfound⟩
        · rintro ⟨he, -⟩
          rw [he]
      · rename_i hfound
        refine iff_of_false (fun he => by cases he) ?_
        rintro ⟨he, data', endpoints', hc, hfound'⟩
        cases he
        cases hc
        exact hfound hfound'
    | failure ec =>
      refine iff_of_false (fun he => by cases he) ?_
      rintro ⟨-, data, endpoints, hc, -⟩
      cases hc
  | readBody side' k' limit httpBody =>
    refine iff_of_false ?_ fun h => by cases h.1
    cases c <;> simp only [Op.final]
    · split <;> simp
    · simp
  | resolve k' host => cases c <;> exact iff_of_false (fun he => by cases he) fun h => by cases h.1
  | connect k' entries =>
    refine iff_of_false ?_ fun h => by cases h.1
    rcases entries with _ | ⟨entry, _ | ⟨next, rest⟩⟩ <;> cases c <;> exact fun he => by cases he
  | write side' k' rest =>
    refine iff_of_false ?_ fun h => by cases h.1
    cases c <;> simp only [Op.final]
    · split <;> simp
    · simp

/-- The end of a handler, and what the handler logs. -/
theorem rested_outcome {s t : Socket} {expiry : Nat} {op : Op} {ec : Option ErrorCode}
    (out : Outcome (s.finish op ec) t) : Always (Rested expiry) t.trace ↔
      Always (Rested expiry) s.trace ∧ Rested expiry (.finish op ec s.now) s.trace := by
  have finished : Always (Rested expiry) (s.finish op ec).trace ↔
      Always (Rested expiry) s.trace ∧ Rested expiry (.finish op ec s.now) s.trace := and_comm
  rw [← finished]
  cases out with
  | returns hn htr => rw [htr, rested_append hn]
  | closes hn htr => rw [htr, rested_cons (by simp), rested_append hn]
  | starts hn htr => rw [htr, rested_cons (by simp), rested_append hn]

theorem step_rested_iff {s t : Socket} {e : Event} (hr : session.Reachable s) (hs : session.Step s e t) :
    Always (Rested t.timer.expiry) t.trace ↔ Always (Rested s.timer.expiry) s.trace ∧ Unhurried s e := by
  rw [step_expiry (reachable_chain hr) hs]
  have flagged := reachable_flagged hr
  cases (reachable_chain hr).move hs with
  | io => exact (rested_append shows_passive).trans (and_iff_left trivial).symm
  | @dispatch op q t ho hres =>
    rcases Socket.resume_outcome rfl hres with ⟨hnone, -, htr, -⟩ | ⟨op', ec, hsome, out⟩
    · rw [htr]
      refine (and_iff_left fun k data endpoints ho' hfound => ?_).symm
      rw [ho] at ho'
      cases Option.some.inj ho'
      have hfinal := (final_header_iff (s := { s with outstanding := [] })).mpr ⟨rfl, data, endpoints, rfl, hfound⟩
      cases hnone.symm.trans hfinal
    · refine (rested_outcome out).trans (and_congr_right fun _ => ?_)
      constructor
      · intro rested k data endpoints ho' hfound running
        rw [ho] at ho'
        cases Option.some.inj ho'
        have hfinal := (final_header_iff (s := { s with outstanding := [] })).mpr ⟨rfl, data, endpoints, rfl, hfound⟩
        cases Option.some.inj (hsome.symm.trans hfinal)
        exact rested k _ rfl fun hm => absurd (running.symm.trans (flagged.mp hm)) Bool.false_ne_true
      · intro unhurried k u he nostop
        cases he
        obtain ⟨rfl, data, endpoints, rfl, hfound⟩ := final_header_iff.mp hsome
        refine unhurried k data endpoints (by rw [ho]; rfl) hfound ?_
        cases running : s.stopped
        · rfl
        · exact absurd (flagged.mpr running) nostop
  | close =>
    refine Iff.trans ?_ (and_iff_left trivial).symm
    cases running : s.stopped
    · rw [Socket.close_of_not_stopped running]
      exact rested_cons fun _ _ _ => nofun
    · rw [Socket.close_of_stopped running]
  | @wait ec queue =>
    refine Iff.trans ?_ (and_iff_left trivial).symm
    rcases Socket.handleWait_log { s with timer := { s.timer with queue := queue } } ec with
      ⟨htr, -⟩ | ⟨-, -, htr, -⟩ | ⟨-, -, htr, -⟩ <;> rw [htr]
    · rw [rested_cons (by simp), rested_cons (by simp)]
    · exact rested_cons fun _ _ _ => nofun
  | expire | elapse | disconnect => exact (and_iff_left trivial).symm

/-- A timeout comes right before the stop, and the session was running until then. -/
theorem Struck.split {log : List Action} (h : Struck log) {time : Nat} (hm : .timedOut time ∈ log) :
    ∃ newer older, log = newer ++ .stop :: .timedOut time :: older := by
  obtain ⟨newer, older, rfl⟩ := List.append_of_mem hm
  rcases List.eq_nil_or_concat newer with rfl | ⟨newer, a, rfl⟩
  · exact absurd rfl (h.done time)
  · refine ⟨newer, older, ?_⟩
    have hlog : newer.concat a ++ .timedOut time :: older = newer ++ a :: .timedOut time :: older := by simp
    have hstop : a = .stop := (hlog ▸ h.stopped).split time rfl
    rw [hlog, hstop]

/-- When the headers completed before the stop were completed in time, each timeout is an idle one. -/
theorem idle_of_rested {s : Socket} (hr : session.Reachable s) (rested : Always (Rested s.timer.expiry) s.trace) :
    Always IdleTimeout s.trace := by
  refine always_iff.mpr fun newer a older hlog time k u he hfinish => ?_
  obtain ⟨newer', older', hold⟩ := List.append_of_mem hfinish
  have nostop : .stop ∉ older := (hlog ▸ (reachable_struck hr).running).split time he
  have due : s.timer.expiry ≤ time := (reachable_due hr).struck time (by simp [hlog, he])
  rw [hlog, hold] at rested
  have early : u + timeout ≤ s.timer.expiry :=
    (Always.of_append rested).2.split k u rfl fun hs => nostop (by simp [hold, hs])
  exact early.trans due

/-- When a session timed out at its expiry, the headers completed before that are the ones completed before the stop. -/
theorem rested_of_idle {s : Socket} (hr : session.Reachable s) (hm : .timedOut s.timer.expiry ∈ s.trace)
    (idle : Always IdleTimeout s.trace) : Always (Rested s.timer.expiry) s.trace := by
  obtain ⟨newer, older, hlog⟩ := (reachable_struck hr).split hm
  have hidle : IdleTimeout (.timedOut s.timer.expiry) older := by
    rw [hlog] at idle
    exact (Always.of_append idle).2.1
  have rested : Always (Rested s.timer.expiry) older :=
    always_iff.mpr fun newer' a older' hl k u he _ => hidle _ k u rfl (by simp [hl, he])
  rw [hlog, always_append_iff, always_cons, always_cons]
  refine ⟨Always.of_forall fun a l k u _ nostop => ?_, fun _ _ => nofun, fun _ _ => nofun, rested⟩
  exact absurd (by simp) nostop

theorem run_rested_iff {s₀ t : Socket} {ps : List (Socket × Event)} (init : session.Init s₀)
    (run : session.Run s₀ ps t) : Always (Rested t.timer.expiry) t.trace ↔ ∀ p ∈ ps, Unhurried p.1 p.2 := by
  refine Machine.Run.iff_forall_steps (I := fun t => Always (Rested t.timer.expiry) t.trace) init ?_
    (fun s e t hr hs => step_rested_iff hr hs) run
  obtain ⟨now, rfl⟩ := init
  exact ⟨fun _ _ => nofun, fun _ _ => nofun, trivial⟩

/-- In a run in which every request header is completed with a whole timeout left until the expiry, the timer closes
    the session only after an idle timeout. -/
theorem idle_timeout {s₀ t : Socket} {ps : List (Socket × Event)} (init : session.Init s₀)
    (run : session.Run s₀ ps t) (unhurried : ∀ p ∈ ps, Unhurried p.1 p.2) : Always IdleTimeout t.trace :=
  idle_of_rested (run.reachable init) ((run_rested_iff init run).mpr unhurried)

/-- A request comes at once, and its handler cancels the wait; the timer is waited for again, and expires. -/
def earlyRequest : List Event :=
  [.io 0 (.success sampleRequest []), .dispatch 0, .wait, .elapse (15 * 10 ^ 9), .expire, .wait]

def afterEarlyRequest : Socket := (session.exec (Socket.new 0).start earlyRequest).getD (Socket.new 0).start

theorem idle_timeout_earlyRequest :
    .timedOut (15 * 10 ^ 9) ∈ afterEarlyRequest.trace ∧ Always IdleTimeout afterEarlyRequest.trace := by
  have run : session.Run (Socket.new 0).start (session.trail (Socket.new 0).start earlyRequest) afterEarlyRequest :=
    .of_exec (by decide +kernel)
  have early : ∀ p ∈ session.trail (Socket.new 0).start earlyRequest,
      p.1.now + timeout ≤ p.1.timer.expiry ∨ p.2 = .expire ∨ p.2 = .wait := by decide +kernel
  refine ⟨by decide +kernel, idle_timeout ⟨0, rfl⟩ run fun p hp => ?_⟩
  obtain ⟨s, e⟩ := p
  rcases early _ hp with h | rfl | rfl
  · cases e with
    | dispatch i => exact fun _ _ _ _ _ _ => h
    | io | expire | wait | close | elapse | disconnect => trivial
  · trivial
  · trivial

/-- Where the timer did close the session of a timed run, the condition is the exact one. -/
theorem unhurried_of_idle {s₀ t : Socket} {ps : List (Socket × Event)} (init : session.Init s₀)
    (run : session.Run s₀ ps t) (prompt : ∀ p ∈ ps, Prompt p.1 p.2) {time : Nat} (hm : .timedOut time ∈ t.trace)
    (idle : Always IdleTimeout t.trace) : ∀ p ∈ ps, Unhurried p.1 p.2 := by
  have expiry := within_struck (run.within init prompt) hm
  exact (run_rested_iff init run).mp (rested_of_idle (run.reachable init) (expiry ▸ hm) idle)

/-- A request comes ten seconds after the construction, and its handler cancels the wait; the timer is waited for
    again, and expires five seconds later. -/
def lateRequest : List Event :=
  [.elapse (10 * 10 ^ 9), .io 0 (.success sampleRequest []), .dispatch 0, .wait, .elapse (5 * 10 ^ 9), .expire, .wait]

def afterLateRequest : Socket := (session.exec (Socket.new 0).start lateRequest).getD (Socket.new 0).start

theorem lateRequest_run :
    session.Run (Socket.new 0).start (session.trail (Socket.new 0).start lateRequest) afterLateRequest := by
  refine .of_exec ?_
  decide +kernel

theorem lateRequest_prompt : ∀ p ∈ session.trail (Socket.new 0).start lateRequest, Prompt p.1 p.2 := by
  decide +kernel

theorem lateRequest_log : ∃ older, afterLateRequest.trace = .stop :: .timedOut (15 * 10 ^ 9) :: older ∧
    .finish (.readHeader .client 0) none (10 * 10 ^ 9) ∈ older :=
  ⟨afterLateRequest.trace.drop 2, by decide +kernel, by decide +kernel⟩

theorem afterLateRequest_not_idle : ¬Always IdleTimeout afterLateRequest.trace := by
  obtain ⟨older, htrace, hfinish⟩ := lateRequest_log
  intro idle
  rw [htrace] at idle
  have late := idle.2.1 _ _ _ rfl hfinish
  simp [timeout] at late

theorem timeout_not_idle : ¬∀ s₀ ps t, session.Init s₀ → session.Run s₀ ps t → (∀ p ∈ ps, Prompt p.1 p.2) →
    Always IdleTimeout t.trace := by
  intro idle
  exact afterLateRequest_not_idle (idle _ _ _ ⟨0, rfl⟩ lateRequest_run lateRequest_prompt)

end HttpProxy
