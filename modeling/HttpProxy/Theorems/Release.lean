import HttpProxy.Theorems.Faults
import HttpProxy.Theorems.Routing
import HttpProxy.Theorems.Stop
import Mathlib.Algebra.GroupWithZero.Nat

/-! The release of a stopped session. `close` cancels what waits on the two sockets. What is left then has to
    come to its end by itself, without the peers: completions that are queued are run, and the resolver answers.
    Some operations do not: those that go on with another step after the cancellation. -/

namespace HttpProxy
open Search

/-- The events in which no peer takes part: a queued completion is run, or the resolver answers. -/
def Internal (s : Socket) : Event → Prop
  | .dispatch _ | .wait => True
  | .io i _ => ∃ k host, s.outstanding[i]? = some ⟨.resolve k host, none⟩
  | _ => False

/-- Nothing holds the session any more. -/
structure Free (s : Socket) : Prop where
  idle : s.outstanding = []
  pending : s.timer.pending = 0
  queue : s.timer.queue = []

/-- The completions after which nothing is outstanding in a stopped session, or only a resolution: they conclude
    their operation, and what the handler of a body calls back does not write. -/
def Op.Concludes (s : Socket) (op : Op) (c : Completion) : Prop :=
  (op.final s c).isSome = true ∧
    match op, c with
    | readBody .client _ _ _, .success _ _ => ¬(s.serverSocket.isOpen = true ∧ s.prevHost = s.currHost)
    | readBody .server _ _ _, .success _ _ => False
    | readBody _ _ _ _, .failure ec => ec = .operationAborted ∨ ec = .eof
    | _, _ => True

/-- The operations that a close releases: one that waits, unless it is a connection with more endpoints to try,
    and one whose queued completion concludes it. -/
def Outstanding.Released (s : Socket) : Outstanding → Prop
  | ⟨.connect _ entries, none⟩ => entries.length ≤ 1
  | ⟨_, none⟩ => True
  | ⟨op, some c⟩ => op.Concludes s c

/-- What can be outstanding in a stopped session that comes to its end by itself. -/
def Outstanding.Ending (s : Socket) : Outstanding → Prop
  | ⟨.resolve _ _, none⟩ => True
  | ⟨_, none⟩ => False
  | ⟨op, some c⟩ => op.Concludes s c

/-- When a read of a body completes, the header before it is there. -/
def Begun (s : Socket) : Prop :=
  ∀ side k limit httpBody c, ⟨.readBody side k limit httpBody, some c⟩ ∈ s.outstanding → s.message side k ≠ []

namespace Socket
variable {s t : Socket} {op : Op} {c : Completion}

theorem contained_of_concludes (stopped : s.stopped = true) (h : op.Concludes s c) : op.Contained s c := by
  cases op with
  | readHeader side k =>
    cases c with
    | success data endpoints => exact fun _ _ => Or.inl stopped
    | failure ec => cases side <;> exact Or.inl stopped
  | readBody side k limit httpBody =>
    cases c with
    | success data endpoints => trivial
    | failure ec => cases side <;> exact h.2
  | resolve k host => cases c <;> trivial
  | connect k entries => cases c <;> trivial
  | write side k rest =>
    cases c with
    | success data endpoints => trivial
    | failure ec => exact stopped

/-- Nothing is left after a completion that concludes its operation, unless it calls back. -/
theorem outstanding_of_quiet (idle : s.outstanding = []) (stopped : s.stopped = true) (quiet : op.Quiet s c)
    (final : (op.final s c).isSome = true) (h : s.resume op c = .ok t) : t.outstanding = [] := by
  rcases resume_outcome idle h with ⟨hnone, -⟩ | ⟨op', ec, -, out⟩
  · rw [hnone] at final
    cases final
  · cases out with
    | returns _ _ _ _ _ hnil => exact hnil
    | closes _ _ running =>
      have : s.stopped = false := running
      rw [stopped] at this
      cases this
    | @starts newer op'' q hn htr =>
      rcases resume_of_stopped stopped quiet h with ht | ⟨_, _, ht⟩
      · have hlen := congrArg List.length (ht.symm.trans htr)
        simp at hlen
        omega
      · cases ht.symm.trans htr

/-- The end of a request body starts a resolution, unless the connection is reused. -/
theorem resume_requestBody {k : Nat} {limit : Option Nat} {httpBody data : Bytes} {endpoints : List Endpoint}
    (idle : s.outstanding = []) (done : bodyDone limit (httpBody ++ data) = true)
    (fresh : ¬(s.serverSocket.isOpen = true ∧ s.prevHost = s.currHost))
    (h : s.resume (.readBody .client k limit httpBody) (.success data endpoints) = .ok t) :
    t.outstanding = [⟨.resolve k s.currHost, none⟩] := by
  simp only [resume, done, ↓reduceIte] at h
  rw [← Except.ok.inj h]
  rcases callback_client_cases (((s.finish (.readBody .client k limit (httpBody ++ data)) none).append .client k
    (httpBody ++ data))) k with hr | ⟨ho, hp, -⟩
  · exact (congrArg Socket.outstanding hr).trans (by simp [idle])
  · exact absurd ⟨ho, hp⟩ fresh

theorem sendMessageToServer_outstanding {k : Nat} (idle : s.outstanding = []) (hne : s.message .client k ≠ []) :
    (s.sendMessageToServer k).outstanding = [⟨.write .server k (s.message .client k), none⟩] := by
  simp [sendMessageToServer, idle, hne]

theorem sendMessageToClient_outstanding {k : Nat} (idle : s.outstanding = []) (hne : s.message .server k ≠ []) :
    (s.sendMessageToClient k).outstanding = [⟨.write .client k (s.message .server k), none⟩] := by
  simp [sendMessageToClient, idle, hne]

/-- The end of any other body starts a write. -/
theorem resume_writesBody {side : Side} {k : Nat} {limit : Option Nat} {httpBody data : Bytes}
    {endpoints : List Endpoint} (idle : s.outstanding = []) (done : bodyDone limit (httpBody ++ data) = true)
    (begun : s.message side k ≠ [])
    (writes : side = .server ∨ s.serverSocket.isOpen = true ∧ s.prevHost = s.currHost)
    (h : s.resume (.readBody side k limit httpBody) (.success data endpoints) = .ok t) :
    ∃ side' rest, t.outstanding = [⟨.write side' k rest, none⟩] := by
  simp only [resume, done, ↓reduceIte] at h
  have hne : (s.append side k (httpBody ++ data)).message side k ≠ [] := fun hnil => begun (by
    have hpre := message_prefix_append (s := s) side k (httpBody ++ data) side k
    rw [hnil] at hpre
    exact List.prefix_nil.mp hpre)
  let s' := (s.finish (.readBody side k limit (httpBody ++ data)) none).append side k (httpBody ++ data)
  have hne' : s'.message side k ≠ [] := hne
  rw [← Except.ok.inj h]
  cases side with
  | server => exact ⟨_, _, sendMessageToClient_outstanding (s := s') idle hne'⟩
  | client =>
    have reused : s'.resolveServer k = s'.sendMessageToServer k := if_pos (by simpa [s'] using writes)
    exact ⟨_, _, (congrArg Socket.outstanding reused).trans (sendMessageToServer_outstanding (s := s') idle hne')⟩

/-- A completion that concludes its operation leaves nothing, or a resolution. -/
theorem resume_concludes (idle : s.outstanding = []) (stopped : s.stopped = true) (h : op.Concludes s c) :
    ∃ t, s.resume op c = .ok t ∧ (t.outstanding = [] ∨
      (∃ side k limit httpBody, op = .readBody side k limit httpBody) ∧
        ∃ k host, t.outstanding = [⟨.resolve k host, none⟩]) := by
  obtain ⟨t, ht⟩ := resume_ok_iff.mpr (contained_of_concludes stopped h)
  refine ⟨t, ht, ?_⟩
  by_cases quiet : op.Quiet s c
  · exact Or.inl (outstanding_of_quiet idle stopped quiet h.1 ht)
  · right
    rcases op with _ | ⟨side, k, limit, httpBody⟩ | _ | _ | _ <;> try exact absurd trivial quiet
    rcases c with ⟨data, endpoints⟩ | ec <;> try exact absurd trivial quiet
    have done : bodyDone limit (httpBody ++ data) = true := by
      by_contra hne
      exact quiet fun _ => Bool.eq_false_iff.mpr hne
    cases side with
    | client => exact ⟨⟨_, _, _, _, rfl⟩, k, _, resume_requestBody idle done h.2 ht⟩
    | server => exact h.2.elim

/-- Any other completion faults, or leaves an operation that waits for a peer. -/
theorem resume_not_concludes (idle : s.outstanding = []) (h : ¬op.Concludes s c)
    (begun : ∀ side k limit httpBody, op = .readBody side k limit httpBody → s.message side k ≠ [])
    {t : Socket} (ht : s.resume op c = .ok t) : ∃ op', op'.socket ≠ none ∧ t.outstanding = [⟨op', none⟩] := by
  rcases resume_outcome idle ht with ⟨hnone, hone, -⟩ | ⟨op', ec, hsome, -⟩
  · refine ⟨_, ?_, hone⟩
    rw [Op.next_socket]
    cases op with
    | resolve k host => cases c <;> cases hnone
    | readHeader | readBody | connect | write => simp [Op.socket]
  · have final : (op.final s c).isSome = true := by
      rw [hsome]
      rfl
    have body : ∃ side k limit httpBody, op = .readBody side k limit httpBody := by
      cases op with
      | readBody side k limit httpBody => exact ⟨_, _, _, _, rfl⟩
      | readHeader | resolve | connect | write => exact absurd ⟨final, trivial⟩ h
    obtain ⟨side, k, limit, httpBody, rfl⟩ := body
    cases c with
    | success data endpoints =>
      have done : bodyDone limit (httpBody ++ data) = true := by
        simp only [Op.final] at final
        split at final
        · assumption
        · cases final
      have writes : side = .server ∨ s.serverSocket.isOpen = true ∧ s.prevHost = s.currHost := by
        cases side with
        | server => exact Or.inl rfl
        | client => exact Or.inr (by_contra fun hfresh => h ⟨final, hfresh⟩)
      obtain ⟨side', rest, hone⟩ := resume_writesBody idle done (begun _ _ _ _ rfl) writes ht
      exact ⟨_, by simp [Op.socket], hone⟩
    | failure ec =>
      have contained := resume_ok_iff.mp ⟨t, ht⟩
      refine absurd ⟨final, ?_⟩ h
      cases side <;> exact contained

end Socket

/-! ### A stopped session left to itself -/

/-- A stopped session that comes to its end by itself. -/
structure Settling (s : Socket) : Prop where
  stopped : s.stopped = true
  pending : s.timer.pending = 0
  ending : s.outstanding = [] ∨ ∃ o, s.outstanding = [o] ∧ o.Ending s

/-- How many internal steps an operation may still take: the end of a body may start a resolution. -/
def Outstanding.weight : Outstanding → Nat
  | ⟨.readBody _ _ _ _, some _⟩ => 3
  | ⟨_, none⟩ => 2
  | ⟨_, some _⟩ => 1

def remaining (s : Socket) : Nat := s.timer.queue.length + (s.outstanding.map Outstanding.weight).sum

theorem cancel_of_pending {w : Timer} (h : w.pending = 0) : w.cancel = w := by
  cases w
  simp only at h
  simp [Timer.cancel, h]

namespace Settling
variable {s t : Socket}

theorem single (h : Settling s) : s.outstanding.length ≤ 1 := by
  rcases h.ending with hnil | ⟨o, hone, -⟩
  · simp [hnil]
  · simp [hone]

/-- The queued completion of a settling session is run without a fault and brings it closer to its end. -/
theorem dispatch {op : Op} {c : Completion} (h : Settling s) (ho : s.outstanding = [⟨op, some c⟩]) :
    ∃ t, { s with outstanding := [] }.resume op c = .ok t ∧ Settling t ∧ remaining t < remaining s := by
  have concludes : op.Concludes s c := by
    rcases h.ending with hnil | ⟨o, hone, hend⟩
    · rw [ho] at hnil
      cases hnil
    · cases List.singleton_inj.mp (ho.symm.trans hone)
      cases op <;> exact hend
  obtain ⟨t, ht, hout⟩ := Socket.resume_concludes (s := { s with outstanding := [] }) rfl h.stopped concludes
  have timer : t.timer = s.timer := by
    rcases Socket.resume_timer rfl ht with htm | htm
    · exact htm
    · exact htm.trans (cancel_of_pending h.pending)
  have stopped := Socket.resume_stopped (s := { s with outstanding := [] }) rfl h.stopped ht
  refine ⟨t, ht, ⟨stopped, timer ▸ h.pending, ?_⟩, ?_⟩
  · rcases hout with hnil | ⟨-, k, host, hone⟩
    · exact Or.inl hnil
    · exact Or.inr ⟨_, hone, trivial⟩
  · rcases hout with hnil | ⟨⟨side, k, limit, httpBody, rfl⟩, k', host, hone⟩
    · have : 0 < Outstanding.weight ⟨op, some c⟩ := by cases op <;> simp [Outstanding.weight]
      simp only [remaining, timer, hnil, ho]
      simpa using this
    · simp [remaining, timer, hone, ho, Outstanding.weight]

theorem io {k : Nat} {host : Bytes} {c : Completion} {log : List Action} (h : Settling s)
    (ho : s.outstanding = [⟨.resolve k host, none⟩]) :
    Settling { s with outstanding := [⟨.resolve k host, some c⟩], trace := log } ∧
      remaining { s with outstanding := [⟨.resolve k host, some c⟩], trace := log } < remaining s := by
  refine ⟨⟨h.stopped, h.pending, Or.inr ⟨_, rfl, ?_⟩⟩, ?_⟩
  · cases c <;> exact ⟨rfl, trivial⟩
  · simp [remaining, ho, Outstanding.weight]

theorem wait {ec : Option ErrorCode} {queue : List (Option ErrorCode)} (h : Settling s)
    (hq : s.timer.queue = ec :: queue) :
    Settling ({ s with timer := { s.timer with queue := queue } }.handleWait ec) ∧
      remaining ({ s with timer := { s.timer with queue := queue } }.handleWait ec) < remaining s := by
  have same : { s with timer := { s.timer with queue := queue } }.handleWait ec =
      { s with timer := { s.timer with queue := queue } } := by
    have stopped := h.stopped
    simp [Socket.handleWait, stopped]
  rw [same]
  exact ⟨⟨h.stopped, h.pending, h.ending⟩, by simp [remaining, hq]⟩

/-- A settling session comes to its end. -/
theorem attains (h : Settling s) : session.Attains Internal Free s := by
  refine .of_measure (I := Settling) remaining h (fun s h hfree => ?_) (fun s e h _ he hf => ?_)
    fun s e t h _ he hs => Or.inr ?_
  · -- What is left can be run.
    cases hq : s.timer.queue with
    | cons ec queue =>
      have possible : ∃ out, s.step .wait = some out := by simp [Socket.step, hq]
      obtain ⟨out, hout⟩ := possible
      exact ⟨.wait, out, trivial, hout⟩
    | nil =>
      rcases h.ending with hnil | ⟨⟨op, q⟩, hone, hend⟩
      · exact absurd ⟨hnil, h.pending, hq⟩ hfree
      · cases q with
        | some c => exact ⟨.dispatch 0, { s with outstanding := [] }.resume op c, trivial, by
            rw [session_step_eq]
            simp [Socket.step, hone]⟩
        | none =>
          cases op with
          | resolve k host =>
            have possible : ∃ out, s.step (.io 0 (.success [] [])) = some out := by simp [Socket.step, hone, Op.allows]
            obtain ⟨out, hout⟩ := possible
            exact ⟨.io 0 (.success [] []), out, ⟨k, host, by simp [hone]⟩, hout⟩
          | readHeader | readBody | connect | write => exact hend.elim
  · obtain ⟨fault, hf⟩ := hf
    cases e with
    | dispatch i =>
      obtain ⟨op, c, hi, hr⟩ := Socket.step_dispatch hf
      obtain ⟨ho, rfl⟩ := Move.eq_singleton h.single hi
      obtain ⟨t, ht, -⟩ := h.dispatch ho
      rw [ho] at hr
      cases hr.trans ht
    | wait =>
      obtain ⟨ec, queue, -, hr⟩ := Socket.step_wait hf
      cases hr
    | io i c =>
      obtain ⟨op, -, -, hr⟩ := Socket.step_io hf
      cases hr
    | expire | close | elapse | disconnect => exact he.elim
  · cases Move.of_step h.single hs with
    | @io op c ho hc =>
      obtain ⟨k, host, hi⟩ := he
      rw [ho] at hi
      cases Option.some.inj hi
      exact h.io ho
    | dispatch ho hr =>
      obtain ⟨t', ht', hsettling⟩ := h.dispatch ho
      cases ht'.symm.trans hr
      exact hsettling
    | wait hq => exact h.wait hq
    | close | expire | elapse | disconnect => exact he.elim

end Settling

/-- A stopped session in which an operation waits for a peer, or will. -/
structure Held (s : Socket) : Prop where
  stopped : s.stopped = true
  begun : Begun s
  held : ∃ o, s.outstanding = [o] ∧ ¬o.Ending s

namespace Held
variable {s : Socket}

/-- What waits for a peer stays, whatever completions of the timer are run. -/
theorem waiting {op : Op} (h : Held s) (hone : s.outstanding = [⟨op, none⟩]) (hend : ¬Outstanding.Ending s ⟨op, none⟩) :
    (∀ e out, Internal s e → session.step s e ≠ some out) ∨ ∃ e t, Internal s e ∧ session.Step s e t ∧ Held t := by
  cases hq : s.timer.queue with
  | cons ec queue =>
    have stopped := h.stopped
    have step : session.Step s .wait { s with timer := { s.timer with queue := queue } } := by
      rw [session_step]
      simp [Socket.step, hq, Socket.handleWait, stopped]
    exact Or.inr ⟨.wait, _, trivial, step, ⟨stopped, h.begun, _, hone, hend⟩⟩
  | nil =>
    refine Or.inl fun e out he hout => ?_
    have single : s.outstanding.length ≤ 1 := by simp [hone]
    cases e with
    | dispatch i =>
      obtain ⟨op', c, hi, -⟩ := Socket.step_dispatch hout
      cases List.singleton_inj.mp (hone.symm.trans (Move.eq_singleton single hi).1)
    | wait =>
      obtain ⟨ec, queue, hq', -⟩ := Socket.step_wait hout
      rw [hq] at hq'
      cases hq'
    | io i c =>
      obtain ⟨k, host, hi⟩ := he
      cases List.singleton_inj.mp (hone.symm.trans (Move.eq_singleton single hi).1)
      exact hend trivial
    | expire | close | elapse | disconnect => exact he

theorem dispatch {op : Op} {c : Completion} (h : Held s) (hone : s.outstanding = [⟨op, some c⟩])
    (hend : ¬Outstanding.Ending s ⟨op, some c⟩) :
    session.Faults s (.dispatch 0) ∨ ∃ t, session.Step s (.dispatch 0) t ∧ Held t := by
  have step : session.step s (.dispatch 0) = some ({ s with outstanding := [] }.resume op c) := by
    rw [session_step_eq]
    simp [Socket.step, hone]
  cases hr : { s with outstanding := [] }.resume op c with
  | error fault => exact Or.inl ⟨fault, step.trans (congrArg some hr)⟩
  | ok t =>
    have concludes : ¬op.Concludes { s with outstanding := [] } c := fun hc => hend (by cases op <;> exact hc)
    have begun : ∀ side k limit httpBody, op = .readBody side k limit httpBody → s.message side k ≠ [] := by
      intro side k limit httpBody hop
      exact h.begun side k limit httpBody c (by simp [hone, hop])
    obtain ⟨op', hsocket, hone'⟩ := Socket.resume_not_concludes rfl concludes begun hr
    have stopped := Socket.resume_stopped (s := { s with outstanding := [] }) rfl h.stopped hr
    refine Or.inr ⟨t, step.trans (congrArg some hr), ⟨stopped, fun side k limit httpBody c hm => ?_, _, hone', ?_⟩⟩
    · rw [hone'] at hm
      cases List.mem_singleton.mp hm
    · intro hend'
      cases op' with
      | resolve k host => exact hsocket rfl
      | readHeader | readBody | connect | write => exact hend'

theorem not_attains (h : Held s) : ¬session.Attains Internal Free s := by
  refine Machine.not_attains (B := Held) (fun s h hfree => ?_) (fun s h => ?_) h
  · obtain ⟨o, hone, -⟩ := h.held
    rw [hfree.idle] at hone
    cases hone
  · obtain ⟨⟨op, q⟩, hone, hend⟩ := h.held
    cases q with
    | none =>
      rcases h.waiting hone hend with hstuck | hstep
      · exact Or.inl hstuck
      · exact Or.inr (Or.inr hstep)
    | some c =>
      rcases h.dispatch hone hend with hfault | ⟨t, hstep, hheld⟩
      · exact Or.inr (Or.inl ⟨.dispatch 0, trivial, hfault⟩)
      · exact Or.inr (Or.inr ⟨.dispatch 0, t, trivial, hstep, hheld⟩)

end Held

theorem attains_iff_ending {s : Socket} (stopped : s.stopped = true) (pending : s.timer.pending = 0)
    (single : s.outstanding.length ≤ 1) (begun : Begun s) :
    session.Attains Internal Free s ↔ ∀ o ∈ s.outstanding, o.Ending s := by
  constructor
  · intro attains o ho
    by_contra hend
    obtain ⟨i, hi⟩ := List.mem_iff_getElem?.mp ho
    exact Held.not_attains ⟨stopped, begun, o, (Move.eq_singleton single hi).1, hend⟩ attains
  · intro ending
    refine Settling.attains ⟨stopped, pending, ?_⟩
    cases ho : s.outstanding with
    | nil => exact Or.inl rfl
    | cons o rest =>
      have hone : s.outstanding = [o] := (Move.eq_singleton single (by rw [ho]; rfl : s.outstanding[0]? = some o)).1
      exact Or.inr ⟨o, ho ▸ hone, ending o (by simp [ho])⟩

/-! ### The close -/

/-- What waits on the server's socket finds it open. -/
def Opened (s : Socket) : Prop :=
  ∀ op, ⟨op, none⟩ ∈ s.outstanding → op.socket = some .server → s.serverSocket.isOpen = true

namespace Socket
variable {s t : Socket} {op : Op} {c : Completion}

theorem cancel_queued {side : Side} : Outstanding.cancel side ⟨op, some c⟩ = ⟨op, some c⟩ := by
  simp [Outstanding.cancel]

theorem closing_queued : s.closing ⟨op, some c⟩ = ⟨op, some c⟩ := by
  unfold closing
  split <;> simp only [cancel_queued]

/-- A close aborts what waits on a socket. -/
theorem closing_waiting {side : Side} (hop : op.socket = some side) (ho : side = .server → s.serverSocket.isOpen = true) :
    s.closing ⟨op, none⟩ = ⟨op, some (.failure .operationAborted)⟩ := by
  unfold closing
  cases side with
  | client =>
    have hskip : Outstanding.cancel .server ⟨op, none⟩ = ⟨op, none⟩ := by simp [Outstanding.cancel, hop]
    rw [hskip, ite_self]
    simp [Outstanding.cancel, hop]
  | server =>
    rw [if_pos (ho rfl)]
    simp [Outstanding.cancel, hop]

theorem final_congr (h : t.messages = s.messages) : op.final t c = op.final s c := by
  cases s
  cases t
  simp only at h
  subst h
  rcases op with _ | _ | _ | ⟨k, _ | ⟨entry, _ | ⟨next, rest⟩⟩⟩ | _ <;> cases c <;> rfl

theorem concludes_close : op.Concludes s.close c ↔ op.Concludes s c := by
  unfold Op.Concludes
  rw [final_congr close_messages, close_serverSocket, close_prevHost, close_currHost]

/-- The completion of an aborted operation concludes it, unless it has more endpoints to try. -/
theorem concludes_aborted : op.Concludes s (.failure .operationAborted) ↔ Outstanding.Released s ⟨op, none⟩ := by
  cases op with
  | readHeader side k => exact iff_of_true ⟨rfl, trivial⟩ trivial
  | readBody side k limit httpBody => exact iff_of_true ⟨rfl, by cases side <;> exact Or.inl rfl⟩ trivial
  | resolve k host => exact iff_of_true ⟨rfl, trivial⟩ trivial
  | write side k rest => exact iff_of_true ⟨rfl, trivial⟩ trivial
  | connect k entries =>
    rcases entries with _ | ⟨entry, _ | ⟨next, rest⟩⟩
    · exact iff_of_true ⟨rfl, trivial⟩ (Nat.zero_le 1)
    · exact iff_of_true ⟨rfl, trivial⟩ (Nat.le_refl 1)
    · refine iff_of_false (fun hc => ?_) (by simp [Outstanding.Released])
      cases hc.1

theorem closing_ending_iff {o : Outstanding} (opened : Opened s) (ho : o ∈ s.outstanding) :
    (s.closing o).Ending s.close ↔ o.Released s := by
  obtain ⟨op, q⟩ := o
  cases q with
  | some c =>
    rw [closing_queued]
    exact (by cases op <;> exact Iff.rfl : _ ↔ op.Concludes s.close c).trans
      (concludes_close.trans (by cases op <;> exact Iff.rfl))
  | none =>
    cases hop : op.socket with
    | none =>
      cases op with
      | resolve k host => exact iff_of_true (by simp [closing, Outstanding.cancel, Op.socket, Outstanding.Ending]) trivial
      | readHeader | readBody | connect | write => cases hop
    | some side =>
      rw [closing_waiting hop fun hs => opened op ho (hs ▸ hop)]
      exact (by cases op <;> exact Iff.rfl : _ ↔ op.Concludes s.close (.failure .operationAborted)).trans
        (concludes_close.trans concludes_aborted)

end Socket

theorem attains_close_iff {s : Socket} (running : s.stopped = false) (single : s.outstanding.length ≤ 1)
    (opened : Opened s)
    (headed : ∀ side k limit httpBody q, ⟨.readBody side k limit httpBody, q⟩ ∈ s.outstanding → s.message side k ≠ []) :
    session.Attains Internal Free s.close ↔ ∀ o ∈ s.outstanding, o.Released s := by
  have hout : s.close.outstanding = s.outstanding.map s.closing := by rw [Socket.close_of_not_stopped running]
  have pending : s.close.timer.pending = 0 := by
    rw [Socket.close_of_not_stopped running]
    rfl
  have begun : Begun s.close := by
    intro side k limit httpBody c hm
    rw [hout] at hm
    obtain ⟨⟨op, q⟩, ho, he⟩ := List.mem_map.mp hm
    have hop : op = .readBody side k limit httpBody := by simpa using congrArg Outstanding.op he
    subst hop
    rw [Socket.message_congr Socket.close_messages]
    exact headed side k limit httpBody q ho
  rw [attains_iff_ending Socket.close_stopped pending (by rw [hout, List.length_map]; exact single) begun, hout]
  simp only [List.forall_mem_map]
  exact forall₂_congr fun o ho => Socket.closing_ending_iff opened ho

/-- The header of a message whose body is read is there: a host was found in the request, and the session keeps
    that of the reply. -/
theorem Routes.headed {s : Socket} (h : Routes s) {side : Side} {k : Nat} {limit : Option Nat} {httpBody : Bytes}
    {q : Option Completion} (ho : ⟨.readBody side k limit httpBody, q⟩ ∈ s.outstanding) : s.message side k ≠ [] := by
  obtain ⟨hr, -⟩ := h _ ho
  cases side with
  | server => exact hr.2
  | client =>
    obtain ⟨-, request, -, hparse, hpre⟩ := hr
    intro hnil
    rw [hnil] at hpre
    rw [List.prefix_nil.mp hpre] at hparse
    have hfault : parseField [] (ascii "host") = .error (.thrown .outOfRange) := by decide +kernel
    cases hfault.symm.trans hparse

theorem Routes.opened {s : Socket} (h : Routes s) : Opened s := by
  intro op ho hop
  obtain ⟨hr, hl⟩ := h _ ho
  have connected : ConnectedTo s s.currHost → s.serverSocket.isOpen = true := by
    intro ⟨entry, hc, _⟩
    rw [hc]
    rfl
  cases op with
  | readHeader side k =>
    cases side with
    | client => cases hop
    | server => exact connected hr.2
  | readBody side k limit httpBody =>
    cases side with
    | client => cases hop
    | server => exact connected hr.1.2
  | resolve k host => cases hop
  | connect k entries =>
    cases entries with
    | nil =>
      obtain ⟨ec, hec⟩ := hl
      cases hec
    | cons entry rest => exact hr.2.2 (by simp)
  | write side k rest => exact connected hr.2

/-- When a session is stopped, it is released without the peers exactly when its handlers close it, with nothing
    outstanding, or every operation that is outstanding is one that a close releases. -/
theorem close_releases {s t : Socket} {e : Event} (h : session.Reachable s) (hs : session.Step s e t)
    (running : s.stopped = false) (stopped : t.stopped = true) :
    session.Attains Internal Free t ↔ (∃ i, e = .dispatch i) ∨ ∀ o ∈ s.outstanding, o.Released s := by
  have single := (reachable_chain h).single
  have routes := reachable_routes h
  have still : t.stopped = s.stopped → False := fun he => by
    rw [stopped, running] at he
    cases he
  cases (reachable_chain h).move hs with
  | dispatch ho hr =>
    refine iff_of_true ?_ (Or.inl ⟨0, rfl⟩)
    rcases Socket.resume_outcome rfl hr with ⟨-, -, -, hst, -⟩ | ⟨op', ec, -, out⟩
    · exact (still hst).elim
    · cases out with
      | returns _ _ hst => exact (still hst).elim
      | starts _ _ hst => exact (still hst).elim
      | closes _ _ _ _ htm _ hnil =>
        refine (attains_iff_ending stopped (by rw [htm]; rfl) (by simp [hnil]) fun _ _ _ _ _ hm => ?_).mpr ?_
        · rw [hnil] at hm
          cases hm
        · rw [hnil]
          exact fun _ hm => absurd hm List.not_mem_nil
  | close =>
    refine (attains_close_iff running single routes.opened fun _ _ _ _ _ => routes.headed).trans ?_
    exact (or_iff_right (by simp)).symm
  | @wait ec queue hq =>
    rcases Socket.handleWait_cases { s with timer := { s.timer with queue := queue } } ec with
      hw | ⟨-, -, hw⟩ | ⟨-, -, hw⟩
    · exact (still ((congrArg Socket.stopped hw).trans rfl)).elim
    · rw [hw]
      refine (attains_close_iff (s := Socket.log { s with timer := { s.timer with queue := queue } } _) running single
        routes.opened fun _ _ _ _ _ => routes.headed).trans ?_
      exact (or_iff_right (by simp)).symm
    · exact (still ((congrArg Socket.stopped hw).trans rfl)).elim
  | io | expire | elapse | disconnect => exact (still rfl).elim

/-- A request whose header is received in two parts: the step that took the first is done when `close` runs. -/
def halfHeader : List Event := [.io 0 (.success (ascii "GET / HTTP/1.1\r\n") [])]

def afterHalfHeader : Socket := (session.exec (Socket.new 0).start halfHeader).getD (Socket.new 0).start

theorem afterHalfHeader_outstanding : afterHalfHeader.stopped = false ∧
    afterHalfHeader.outstanding =
      [⟨.readHeader .client 0, some (.success (ascii "GET / HTTP/1.1\r\n") [])⟩] ∧
    (find? headerEnd ((afterHalfHeader.append .client 0 (ascii "GET / HTTP/1.1\r\n")).message .client 0)).isSome =
      false := by
  decide +kernel

theorem close_releases_halfHeader : ¬session.Attains Internal Free afterHalfHeader.close := by
  obtain ⟨running, hone, hnone⟩ := afterHalfHeader_outstanding
  intro attains
  have hr : session.Reachable afterHalfHeader := (session_start 0).exec_getD
  rcases (close_releases hr (show session.Step _ .close _ from rfl) running Socket.close_stopped).mp attains with
    ⟨i, hi⟩ | released
  · cases hi
  · have concludes := released _ (hone ▸ List.mem_singleton_self _)
    have final := concludes.1
    simp only [Op.final, hnone] at final
    cases final

theorem closed_not_released : ¬∀ s, session.Reachable s → s.stopped = false →
    session.Attains Internal Free s.close := by
  intro releases
  have hone : afterHalfHeader.close.outstanding =
      [⟨.readHeader .client 0, some (.success (ascii "GET / HTTP/1.1\r\n") [])⟩] := by decide +kernel
  have hnone : Op.final afterHalfHeader.close (.readHeader .client 0)
      (.success (ascii "GET / HTTP/1.1\r\n") []) = none := by decide +kernel
  have held : Held afterHalfHeader.close := by
    refine ⟨Socket.close_stopped, fun side k limit httpBody c hm => ?_, _, hone, fun ending => ?_⟩
    · rw [hone] at hm
      cases List.mem_singleton.mp hm
    · have final := ending.1
      rw [hnone] at final
      cases final
  exact held.not_attains (releases _ (session_start 0).exec_getD afterHalfHeader_outstanding.1)

end HttpProxy
