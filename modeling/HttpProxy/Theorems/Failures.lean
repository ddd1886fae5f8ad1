import HttpProxy.Theorems.Release

/-! Failures that release. A session waits for a request of its client, for the resolver and for the connection to a
    server. Where what it waits for fails, it comes to its end by itself, whatever the timer does in between. -/

namespace HttpProxy
open Search

/-- A stopped session waits for its timer no more. -/
theorem reachable_unarmed {s : Socket} (h : session.Reachable s) : s.stopped = true → s.timer.pending = 0 := by
  refine h.invariant (I := fun s => s.stopped = true → s.timer.pending = 0) (fun s ⟨now, hs⟩ stopped => ?_)
    fun s e t hr unarmed hs stopped => ?_
  · rw [hs] at stopped
    cases stopped
  · have closed : ∀ {u : Socket}, (u.stopped = true → u.timer.pending = 0) → u.close.timer.pending = 0 := by
      intro u hu
      cases running : u.stopped
      · rw [Socket.close_of_not_stopped running]
        rfl
      · rw [Socket.close_of_stopped running]
        exact hu running
    cases (reachable_chain hr).move hs with
    | @dispatch op c t ho hres =>
      have kept : t.stopped = s.stopped → t.timer = s.timer ∨ t.timer = s.timer.cancel → t.timer.pending = 0 := by
        intro hst htm
        rcases htm with htm | htm <;> rw [htm]
        · exact unarmed (hst ▸ stopped)
        · rfl
      rcases Socket.resume_outcome (s := { s with outstanding := [] }) rfl hres with
        ⟨-, -, -, hst, htm, -⟩ | ⟨op', ec, -, out⟩
      · exact kept hst (Or.inl htm)
      · cases out with
        | returns _ _ hst htm => exact kept hst htm
        | closes _ _ _ _ htm => rw [htm]; rfl
        | starts _ _ hst htm => exact kept hst htm
    | close => exact closed unarmed
    | @wait ec queue hq =>
      have unarmed' : ∀ u : Socket, u.stopped = s.stopped → u.timer.pending = s.timer.pending → u.stopped = true →
          u.timer.pending = 0 := fun u hst hp hu => hp.trans (unarmed (hst ▸ hu))
      rcases Socket.handleWait_cases { s with timer := { s.timer with queue := queue } } ec with
        hw | ⟨-, -, hw⟩ | ⟨running, -, hw⟩ <;> rw [hw] at stopped ⊢
      · exact unarmed stopped
      · exact closed (unarmed' (Socket.log { s with timer := { s.timer with queue := queue } } _) rfl rfl)
      · exact absurd (running.symm.trans stopped) Bool.false_ne_true
    | expire => rfl
    | io | elapse | disconnect => exact unarmed stopped

namespace Socket
variable {s : Socket} {k : Nat} {ec : ErrorCode}

/-- The handler closes a running session, and a stopped one is closed already. -/
theorem resolveHandler_failed {entries : List Entry} : s.resolveHandler k (some ec) entries = s.close := by
  cases running : s.stopped
  · simp [resolveHandler, running]
  · simp [resolveHandler, running, close_of_stopped running]

theorem connectHandler_failed : s.connectHandler k (some ec) = s.close := by
  cases running : s.stopped
  · simp [connectHandler, running]
  · simp [connectHandler, running, close_of_stopped running]

end Socket

/-- The failures that a handler answers with a close: the end of the stream of a client who is to send a request, and
    any failure of a resolution or of a connection. -/
def Op.Fails : Op → Completion → Prop
  | readHeader .client _, c => c = .failure .eof
  | resolve _ _, .failure _ | connect _ _, .failure _ => True
  | _, _ => False

theorem Op.Fails.failure {op : Op} {c : Completion} (h : op.Fails c) : ∃ ec, c = .failure ec := by
  cases c with
  | failure ec => exact ⟨ec, rfl⟩
  | success => rcases op with ⟨_ | _, _⟩ | _ | _ | _ | _ <;> cases h

def Op.Fallible : Op → Prop
  | readHeader .client _ | resolve _ _ | connect _ _ => True
  | _ => False

/-- What is waited for fails, what is queued is run, and the timer may expire. -/
def Failing (s : Socket) : Event → Prop
  | .io i c => ∀ o ∈ s.outstanding[i]?, o.op.Fails c
  | .dispatch _ | .wait | .expire => True
  | _ => False

/-- A session that is over, or waits for what fails. -/
structure Waning (s : Socket) : Prop where
  unarmed : s.stopped = true → s.timer.pending = 0
  awaited : s.outstanding = [] ∧ s.stopped = true ∨ ∃ op q, s.outstanding = [⟨op, q⟩] ∧ op.Fallible ∧
    ∀ c ∈ q, op.Fails c ∨ s.stopped = true ∧ c = .failure .operationAborted

/-- How much is left to be run of an operation: a connection may try each of its endpoints. -/
def Outstanding.work : Outstanding → Nat
  | ⟨.connect _ entries, q⟩ => 2 * entries.length + if q.isSome then 1 else 2
  | ⟨_, q⟩ => if q.isSome then 1 else 2

namespace Waning
variable {s t : Socket}

/-- How much is left to be run of a wait that completed: one that was aborted is renewed in a running session, and may
    expire then. -/
def waitWork : Option ErrorCode → Nat
  | some .operationAborted => 3
  | _ => 1

def timerWork (s : Socket) : Nat :=
  if s.stopped then s.timer.queue.length else 2 * s.timer.pending + (s.timer.queue.map waitWork).sum

def work (s : Socket) : Nat := timerWork s + (s.outstanding.map Outstanding.work).sum

theorem waitWork_pos (ec : Option ErrorCode) : 0 < waitWork ec := by
  unfold waitWork
  split <;> simp

theorem length_le_waitWork (queue : List (Option ErrorCode)) : queue.length ≤ (queue.map waitWork).sum := by
  induction queue with
  | nil => exact Nat.le_refl 0
  | cons ec queue ih =>
    have positive := waitWork_pos ec
    rw [List.map_cons, List.sum_cons, List.length_cons]
    omega

/-- A stop leaves no more to be run by the timer. -/
theorem timerWork_stopped (h : s.stopped = true → s.timer.pending = 0) (stopped : t.stopped = true)
    (cancelled : t.timer = s.timer.cancel) : timerWork t ≤ timerWork s := by
  have less := length_le_waitWork s.timer.queue
  simp only [timerWork, stopped, cancelled, ↓reduceIte, Timer.cancel, List.length_append, List.length_replicate]
  split
  · rename_i hs
    rw [h hs, Nat.add_zero]
  · omega

theorem single (h : Waning s) : s.outstanding.length ≤ 1 := by
  rcases h.awaited with ⟨hnil, -⟩ | ⟨op, q, hone, -⟩
  · simp [hnil]
  · simp [hone]

theorem of_singleton {op : Op} {q : Option Completion} (h : Waning s) (ho : s.outstanding = [⟨op, q⟩]) :
    op.Fallible ∧ ∀ c ∈ q, op.Fails c ∨ s.stopped = true ∧ c = .failure .operationAborted := by
  rcases h.awaited with ⟨hnil, -⟩ | ⟨op', q', hone, hop⟩
  · cases hnil.symm.trans ho
  · cases List.singleton_inj.mp (hone.symm.trans ho)
    exact hop

theorem queued_less (op : Op) (c : Completion) : Outstanding.work ⟨op, some c⟩ < Outstanding.work ⟨op, none⟩ := by
  cases op <;> simp [Outstanding.work]

theorem io {op : Op} {c : Completion} {log : List Action} (h : Waning s) (ho : s.outstanding = [⟨op, none⟩])
    (hc : op.Fails c) : Waning { s with outstanding := [⟨op, some c⟩], trace := log } ∧
      work { s with outstanding := [⟨op, some c⟩], trace := log } < work s := by
  have fallible := (h.of_singleton ho).1
  refine ⟨⟨h.unarmed, Or.inr ⟨op, _, rfl, fallible, fun c' hc' => Or.inl (Option.some.inj hc' ▸ hc)⟩⟩, ?_⟩
  have less := queued_less op c
  simpa [work, timerWork, ho] using less

/-- A close with nothing outstanding leaves only completions of the timer. -/
theorem closed {u : Socket} (h : Waning s) (busy : s.outstanding ≠ []) (idle : u.outstanding = [])
    (hst : u.stopped = s.stopped) (htm : u.timer = s.timer ∨ u.timer = s.timer.cancel) :
    Waning u.close ∧ work u.close < work s := by
  have cancelled : u.close.timer = s.timer.cancel := by
    cases running : u.stopped
    · rw [Socket.close_of_not_stopped running]
      rcases htm with htm | htm
      · exact congrArg Timer.cancel htm
      · exact (congrArg Timer.cancel htm).trans (Timer.cancel_cancel _)
    · rw [Socket.close_of_stopped running]
      rcases htm with htm | htm
      · exact htm.trans (cancel_of_pending (h.unarmed (hst ▸ running))).symm
      · exact htm
  have rest : u.close.outstanding = [] := Socket.close_outstanding_nil idle
  have less := timerWork_stopped h.unarmed Socket.close_stopped cancelled
  refine ⟨⟨fun _ => by rw [cancelled]; rfl, Or.inl ⟨rest, Socket.close_stopped⟩⟩, ?_⟩
  obtain ⟨o, os, ho⟩ := List.exists_cons_of_ne_nil busy
  have positive : 0 < o.work := by
    obtain ⟨op, q⟩ := o
    cases op <;> cases q <;> simp [Outstanding.work]
  simp only [work, rest, ho, List.map_nil, List.sum_nil, List.map_cons, List.sum_cons]
  omega

/-- The handler of a failure closes a running session and returns in a stopped one, unless a connection has another
    endpoint to try. -/
theorem dispatch {op : Op} {c : Completion} (h : Waning s) (ho : s.outstanding = [⟨op, some c⟩]) :
    ∃ t, { s with outstanding := [] }.resume op c = .ok t ∧ Waning t ∧ work t < work s := by
  obtain ⟨fallible, hc⟩ := h.of_singleton ho
  have busy : s.outstanding ≠ [] := by simp [ho]
  obtain ⟨ec, rfl⟩ : ∃ ec, c = .failure ec := by
    rcases hc c rfl with failed | ⟨-, rfl⟩
    · exact failed.failure
    · exact ⟨_, rfl⟩
  let s' := { s with outstanding := [] }.finish op (some ec)
  cases op with
  | readHeader side k =>
    cases side with
    | server => exact fallible.elim
    | client =>
      refine ⟨s'.cancelTimer.close, ?_, h.closed busy rfl rfl (Or.inr rfl)⟩
      simp only [Socket.resume, Socket.headerHandler, Socket.clientHeaderHandler]
      cases running : s.stopped with
      | false =>
        obtain rfl : ec = .eof := by simpa [Op.Fails, running] using hc _ rfl
        simp [running, s']
      | true =>
        rw [Socket.close_of_stopped (s := s'.cancelTimer) running]
        simp [running, s']
  | resolve k host =>
    exact ⟨_, congrArg Except.ok (Socket.resolveHandler_failed (s := s')), h.closed busy rfl rfl (Or.inl rfl)⟩
  | connect k entries =>
    rcases entries with _ | ⟨entry, _ | ⟨next, rest⟩⟩
    · exact ⟨_, congrArg Except.ok (Socket.connectHandler_failed (s := s')), h.closed busy rfl rfl (Or.inl rfl)⟩
    · exact ⟨_, congrArg Except.ok (Socket.connectHandler_failed (s := s')), h.closed busy rfl rfl (Or.inl rfl)⟩
    · refine ⟨_, rfl, ⟨h.unarmed, Or.inr ⟨_, none, rfl, trivial, fun c hc => by cases hc⟩⟩, ?_⟩
      simp [work, timerWork, ho, Outstanding.work]
      omega
  | readBody | write => exact fallible.elim

theorem wait {ec : Option ErrorCode} {queue : List (Option ErrorCode)} (h : Waning s)
    (hq : s.timer.queue = ec :: queue) :
    Waning ({ s with timer := { s.timer with queue := queue } }.handleWait ec) ∧
      work ({ s with timer := { s.timer with queue := queue } }.handleWait ec) < work s := by
  let s' := { s with timer := { s.timer with queue := queue } }
  have less : timerWork s' < timerWork s := by
    have positive := waitWork_pos ec
    simp only [timerWork, s', hq, List.length_cons, List.map_cons, List.sum_cons]
    split <;> omega
  rcases Socket.handleWait_cases s' ec with hw | ⟨running, -, hw⟩ | ⟨running, rfl, hw⟩ <;> rw [hw]
  · exact ⟨⟨h.unarmed, h.awaited⟩, Nat.add_lt_add_right less _⟩
  · -- The timer closes the session: what waits on a socket is aborted.
    obtain ⟨op, q, hone, fallible, hop⟩ := h.awaited.resolve_left fun ended => by cases running.symm.trans ended.2
    let u := s'.log (.timedOut s'.now)
    have closes : u.close = _ := Socket.close_of_not_stopped (s := u) running
    have cancelled : u.close.timer = s'.timer.cancel := by rw [closes]; rfl
    have lessAgain : timerWork u.close ≤ timerWork s' :=
      timerWork_stopped (s := s') (fun hs => by cases running.symm.trans hs) Socket.close_stopped cancelled
    obtain ⟨q', hout, hq'⟩ : ∃ q', u.close.outstanding = [⟨op, q'⟩] ∧
        (q' = q ∨ q = none ∧ q' = some (.failure .operationAborted)) := by
      refine ⟨(u.closing ⟨op, q⟩).completion, ?_, Socket.closing_completion u ⟨op, q⟩⟩
      have hmap : u.close.outstanding = s.outstanding.map u.closing := by rw [closes]; rfl
      have same : u.closing ⟨op, q⟩ = ⟨op, (u.closing ⟨op, q⟩).completion⟩ := Socket.closing_eq
      rw [hmap, hone, List.map_singleton, ← same]
    refine ⟨⟨fun _ => by rw [cancelled]; rfl, Or.inr ⟨op, q', hout, fallible, fun c hc => ?_⟩⟩, ?_⟩
    · rcases hq' with rfl | ⟨-, rfl⟩
      · exact (hop c hc).imp_right fun stopped => ⟨Socket.close_stopped, stopped.2⟩
      · exact Or.inr ⟨Socket.close_stopped, (Option.some.inj hc).symm⟩
    · have pieces : (u.close.outstanding.map Outstanding.work).sum ≤ (s.outstanding.map Outstanding.work).sum := by
        rw [hout, hone]
        rcases hq' with rfl | ⟨rfl, rfl⟩
        · exact Nat.le_refl _
        · simpa using Nat.le_of_lt (queued_less op _)
      exact Nat.add_lt_add_of_lt_of_le (lessAgain.trans_lt less) pieces
  · refine ⟨⟨fun hs => absurd (running.symm.trans hs) Bool.false_ne_true, h.awaited⟩, Nat.add_lt_add_right ?_ _⟩
    have running' : s.stopped = false := running
    simp only [timerWork, Socket.asyncWait_stopped, Socket.asyncWait_timer, Timer.asyncWait, running', hq, s',
      Bool.false_eq_true, ↓reduceIte, List.map_cons, List.sum_cons, waitWork]
    omega

theorem expire (h : Waning s) (hp : 0 < s.timer.pending) :
    Waning { s with timer := s.timer.expire } ∧ work { s with timer := s.timer.expire } < work s := by
  refine ⟨⟨fun _ => rfl, h.awaited⟩, Nat.add_lt_add_right ?_ _⟩
  cases running : s.stopped
  · simp only [timerWork, running, Timer.expire, Bool.false_eq_true, ↓reduceIte, List.map_append, List.sum_append,
      List.map_replicate, List.sum_replicate_nat, waitWork]
    omega
  · have unarmed := h.unarmed running
    omega

theorem attains (h : Waning s) : session.Attains Failing Free s := by
  refine .of_measure (I := Waning) work h (fun s h hfree => ?_) (fun s e h _ he hf => ?_)
    fun s e t h _ he hs => Or.inr ?_
  · -- What is queued can be run, and what is waited for can fail.
    rcases h.awaited with ⟨hnil, stopped⟩ | ⟨op, q, hone, fallible, -⟩
    · cases hqueue : s.timer.queue with
      | nil => exact absurd ⟨hnil, h.unarmed stopped, hqueue⟩ hfree
      | cons ec queue => exact ⟨.wait, _, trivial, by rw [session_step_eq, Socket.step, hqueue]⟩
    · cases q with
      | none =>
        have possible : ∃ out, s.step (.io 0 (.failure .eof)) = some out := by simp [Socket.step, hone, Op.allows]
        have fails : op.Fails (.failure .eof) := by
          rcases op with ⟨_ | _, _⟩ | _ | _ | _ | _ <;> first | exact fallible.elim | exact trivial | rfl
        obtain ⟨out, hout⟩ := possible
        refine ⟨.io 0 (.failure .eof), out, fun o ho => ?_, hout⟩
        rw [hone] at ho
        rw [← Option.some.inj ho]
        exact fails
      | some c => exact ⟨.dispatch 0, { s with outstanding := [] }.resume op c, trivial, by
          rw [session_step_eq]
          simp [Socket.step, hone]⟩
  · obtain ⟨fault, hf⟩ := hf
    cases e with
    | dispatch i =>
      obtain ⟨op, c, hi, hr⟩ := Socket.step_dispatch hf
      obtain ⟨ho, rfl⟩ := Move.eq_singleton h.single hi
      obtain ⟨t, ht, -⟩ := h.dispatch ho
      rw [ho] at hr
      cases hr.trans ht
    | io i c =>
      obtain ⟨op, -, -, hr⟩ := Socket.step_io hf
      cases hr
    | wait =>
      obtain ⟨ec, queue, -, hr⟩ := Socket.step_wait hf
      cases hr
    | expire =>
      obtain ⟨-, -, hr⟩ := Socket.step_expire hf
      cases hr
    | close | elapse | disconnect => exact he.elim
  · cases Move.of_step h.single hs with
    | @io op c ho hc => exact h.io ho (he ⟨op, none⟩ (by rw [ho]; rfl))
    | dispatch ho hr =>
      obtain ⟨t', ht', waning⟩ := h.dispatch ho
      cases ht'.symm.trans hr
      exact waning
    | wait hq => exact h.wait hq
    | expire hp _ => exact h.expire hp
    | close | elapse | disconnect => exact he.elim

end Waning

theorem reachable_waning {s : Socket} (h : session.Reachable s) {op : Op} (waiting : s.outstanding = [⟨op, none⟩])
    (fallible : op.Fallible) : Waning s :=
  ⟨reachable_unarmed h, Or.inr ⟨op, none, waiting, fallible, fun _ hc => by cases hc⟩⟩

/-- A session that waits for a request, for the resolver or for a connection, whether it runs or is stopped and however
    many endpoints are left to be tried: as soon as what it waits for fails, in each endpoint, it is released by what
    is queued alone, and no handler faults. -/
theorem failure_releases {s : Socket} (h : session.Reachable s) {op : Op} (waiting : s.outstanding = [⟨op, none⟩])
    (fallible : op.Fallible) : session.Attains Failing Free s :=
  (reachable_waning h waiting fallible).attains

/-- The session of a request for a name that has two endpoints. -/
def connecting : Socket :=
  (session.exec (Socket.new 0).start [.io 0 (.success sampleRequest []), .dispatch 0,
    .io 0 (.success [] [⟨1, 80⟩, ⟨2, 80⟩]), .dispatch 0]).getD (Socket.new 0).start

theorem failure_releases_connecting : session.Attains Failing Free connecting := by
  have waiting : connecting.outstanding = [⟨.connect 0 [⟨⟨1, 80⟩, ascii "a.com", ascii "http"⟩,
      ⟨⟨2, 80⟩, ascii "a.com", ascii "http"⟩], none⟩] := by decide +kernel
  exact failure_releases (session_start 0).exec_getD waiting trivial

end HttpProxy
