import HttpProxy.Theorems.Handlers
import HttpProxy.Library.Log

/-! A session is a single chain of operations. At most one is outstanding, it belongs to the newest entry of
    `messages`, and what the rounds pass through comes in one fixed order: the read of request `k` starts, its
    write to the server starts, that write is done, the write of reply `k` to the client starts, that write is
    done, and round `k + 1` follows. -/

namespace HttpProxy
open Log

/-- The places of the actions in that order, five for each round. -/
def milestone : Action → Option Nat
  | .start (.readHeader .client k) => some (5 * k)
  | .start (.write .server k _) => some (5 * k + 1)
  | .finish (.write .server k []) none _ => some (5 * k + 2)
  | .start (.write .client k _) => some (5 * k + 3)
  | .finish (.write .client k []) none _ => some (5 * k + 4)
  | _ => none

/-- The places that a log passed, newest first. -/
def milestones (log : List Action) : List Nat := log.filterMap milestone

/-- The number of places passed while an operation is outstanding. -/
def Op.reached : Op → Nat
  | readHeader .client k | readBody .client k _ _ | resolve k _ | connect k _ => 5 * k + 1
  | write .server k _ => 5 * k + 2
  | readHeader .server k | readBody .server k _ _ => 5 * k + 3
  | write .client k _ => 5 * k + 4

/-- A part of a message is sent only during the write of that message. -/
def SentInWrite : Action → List Action → Prop
  | .sent side k _, older => ∃ rest, (milestones older).head? = milestone (.start (.write side k rest))
  | _, _ => True

structure Chain (s : Socket) : Prop where
  single : s.outstanding.length ≤ 1
  current : ∀ o ∈ s.outstanding, o.op.msgId + 1 = s.messages.length
  schedule : ∃ n, milestones s.trace = (List.range n).reverse ∧ ∀ o ∈ s.outstanding, o.op.reached = n
  sent : Always SentInWrite s.trace

/-- A session between the end of one operation and the start of the next, in round `k` with `n` places passed. -/
structure Between (s : Socket) (k n : Nat) : Prop where
  idle : s.outstanding = []
  current : k + 1 = s.messages.length
  schedule : milestones s.trace = (List.range n).reverse
  sent : Always SentInWrite s.trace

theorem milestones_cons_none {a : Action} {log : List Action} (h : milestone a = none) :
    milestones (a :: log) = milestones log := List.filterMap_cons_none h

theorem milestones_cons_some' {a : Action} {log : List Action} {n : Nat} (h : milestone a = some n) :
    milestones (a :: log) = n :: milestones log := List.filterMap_cons_some h

theorem milestones_cons_some {a : Action} {log : List Action} {n : Nat} (h : milestone a = some n)
    (hl : milestones log = (List.range n).reverse) : milestones (a :: log) = (List.range (n + 1)).reverse := by
  rw [milestones_cons_some' h, hl, List.range_succ, List.reverse_append]
  rfl

namespace Between
variable {s t : Socket} {k n : Nat} {side : Side}

theorem chain (h : Between s k n) : Chain s where
  single := by rw [h.idle]; exact Nat.zero_le _
  current o ho := by rw [h.idle] at ho; cases ho
  schedule := ⟨n, h.schedule, fun o ho => by rw [h.idle] at ho; cases ho⟩
  sent := h.sent

/-- A change that keeps the entries of `messages` and logs nothing the order speaks of. -/
theorem frame (h : Between s k n) (newer : List Action) (ho : t.outstanding = s.outstanding)
    (hm : t.messages.length = s.messages.length) (ht : t.trace = newer ++ s.trace)
    (hnew : ∀ a ∈ newer, milestone a = none ∧ ∀ side k data, a ≠ .sent side k data) : Between t k n where
  idle := ho.trans h.idle
  current := h.current.trans hm.symm
  schedule := by
    rw [ht, milestones, List.filterMap_append, List.filterMap_eq_nil_iff.mpr fun a ha => (hnew a ha).1,
      List.nil_append]
    exact h.schedule
  sent := by
    rw [ht, always_append]
    · exact h.sent
    · intro a ha older
      cases a with
      | sent side k data => exact absurd rfl ((hnew _ ha).2 side k data)
      | _ => trivial

theorem log (h : Between s k n) {a : Action} (ha : milestone a = none) (hs : ∀ side k data, a ≠ .sent side k data) :
    Between (s.log a) k n :=
  h.frame [a] rfl rfl rfl fun b hb => by
    rw [List.mem_singleton.mp hb]
    exact ⟨ha, hs⟩

theorem append (h : Between s k n) (side : Side) (data : Bytes) : Between (s.append side k data) k n :=
  h.frame [] rfl (List.length_modify _ _ _) rfl fun _ hb => nomatch hb

theorem cancelTimer (h : Between s k n) : Between s.cancelTimer k n :=
  h.frame [] rfl rfl rfl fun _ hb => nomatch hb

/-- The end of an operation that is not a write. -/
theorem finish (h : Between s k n) (op : Op) {ec : Option ErrorCode}
    (hop : milestone (.finish op ec s.now) = none) : Between (s.finish op ec) k n :=
  h.log hop fun _ _ _ => nofun

/-- The end of a write, which passes a place. -/
theorem finish_write (h : Between s k n) {side : Side}
    (hop : milestone (.finish (.write side k []) none s.now) = some n) :
    Between (s.finish (.write side k []) none) k (n + 1) where
  idle := h.idle
  current := h.current
  schedule := milestones_cons_some hop h.schedule
  sent := ⟨trivial, h.sent⟩

theorem close (h : Between s k n) : Chain s.close := by
  cases hs : s.stopped
  · refine (h.frame [.stop] (t := s.close) ?_ ?_ ?_ ?_).chain
    · rw [Socket.close_outstanding_nil h.idle, h.idle]
    · rw [Socket.close_messages]
    · rw [Socket.close_of_not_stopped hs]
      rfl
    · intro a ha
      rw [List.mem_singleton.mp ha]
      exact ⟨rfl, fun _ _ _ => nofun⟩
  · rw [Socket.close_of_stopped hs]
    exact h.chain

theorem again (h : Between s k n) {op : Op} (hk : op.msgId = k) (hop : op.reached = n) : Chain (s.again op) where
  single := by simp [h.idle]
  current o ho := by
    rw [Socket.mem_again h.idle ho, hk]
    exact h.current
  schedule := ⟨n, h.schedule, fun o ho => by rw [Socket.mem_again h.idle ho, hop]⟩
  sent := h.sent

/-- The start of an operation, which may pass a place. -/
theorem startOp (h : Between s k n) {op : Op} (q : Option Completion) (hk : op.msgId = k)
    (hop : milestone (.start op) = none ∧ op.reached = n ∨ milestone (.start op) = some n ∧ op.reached = n + 1) :
    Chain (s.startOp op q) where
  single := by simp [h.idle]
  current o ho := by
    rw [Socket.mem_startOp h.idle ho, hk]
    exact h.current
  schedule := by
    rcases hop with ⟨hm, hr⟩ | ⟨hm, hr⟩
    · exact ⟨n, (milestones_cons_none hm).trans h.schedule, fun o ho => by rw [Socket.mem_startOp h.idle ho, hr]⟩
    · exact ⟨n + 1, milestones_cons_some hm h.schedule, fun o ho => by rw [Socket.mem_startOp h.idle ho, hr]⟩
  sent := ⟨trivial, h.sent⟩

theorem sendMessageToServer (h : Between s k (5 * k + 1)) : Chain (s.sendMessageToServer k) :=
  h.startOp _ rfl (Or.inr ⟨rfl, rfl⟩)

theorem callback (h : Between s k (Op.reached (.readHeader side k))) : Chain (s.callback side k) := by
  cases side with
  | client =>
    rcases Socket.callback_client_cases s k with hr | ⟨-, -, hr⟩ <;> rw [hr]
    · exact h.startOp none rfl (Or.inl ⟨rfl, rfl⟩)
    · exact h.sendMessageToServer
  | server => exact h.startOp _ rfl (Or.inr ⟨rfl, rfl⟩)

theorem readBody (h : Between s k (Op.reached (.readHeader side k))) {header : Bytes}
    (hb : s.readBody side k header = .ok t) : Chain t := by
  rcases Socket.readBody_cases hb with ⟨-, rfl⟩ | ⟨-, rfl⟩ | ⟨-, limit, q, rfl, -⟩
  · exact h.chain
  · exact h.callback
  · exact h.startOp q rfl (Or.inl ⟨rfl, by cases side <;> rfl⟩)

theorem headerHandler (h : Between s k (Op.reached (.readHeader side k))) {ec : Option ErrorCode} {len : Nat}
    (hh : s.headerHandler side k ec len = .ok t) : Chain t := by
  cases side with
  | client =>
    rcases Socket.clientHeaderHandler_cases hh with ⟨rfl, -⟩ | ⟨rfl, -, -⟩ | ⟨-, -, -, host, -, hb⟩
    · exact h.cancelTimer.chain
    · exact h.cancelTimer.close
    · refine readBody (s := Socket.log { s.cancelTimer with currHost := host } _) ?_ hb
      exact (h.cancelTimer.frame [] (t := { s.cancelTimer with currHost := host }) rfl rfl rfl
        fun _ hb => nomatch hb).log rfl fun _ _ _ => nofun
  | server =>
    rcases Socket.serverHeaderHandler_cases hh with ⟨rfl, -⟩ | ⟨rfl, -, -⟩ | ⟨-, -, hb⟩
    · exact h.chain
    · exact h.close
    · exact h.readBody hb

theorem sharedHandler (h : Between s k (Op.reached (.readHeader side k))) {httpBody : Bytes} {ec : Option ErrorCode}
    (hh : s.sharedHandler side k httpBody ec = .ok t) : Chain t := by
  rcases Socket.sharedHandler_cases hh with ⟨-, rfl⟩ | ⟨-, rfl⟩
  · exact (h.append side httpBody).callback
  · exact (h.append side httpBody).chain

theorem getMessageFromClient (h : Between s k (5 * k + 5)) : Chain s.getMessageFromClient := by
  have next : Between { s with messages := s.messages ++ [([], [])] } (k + 1) (5 * (k + 1)) :=
    ⟨h.idle, by simp [h.current], h.schedule, h.sent⟩
  exact next.startOp none (by simp [Op.msgId, ← h.current]) (Or.inr ⟨by simp [milestone, ← h.current], by
    simp [Op.reached, ← h.current]⟩)

theorem writeHandler (h : Between s k (Op.reached (.write side k []) + 1)) {ec : Option ErrorCode}
    (hh : s.writeHandler side k ec = .ok t) : Chain t := by
  rcases Socket.writeHandler_cases hh with ⟨-, rfl⟩ | ⟨-, -, ⟨rfl, rfl⟩ | ⟨rfl, rfl⟩⟩
  · exact h.chain
  · exact (h.frame [] (t := { s with prevHost := s.currHost }) rfl rfl rfl
      fun _ hb => nomatch hb).getMessageFromClient
  · exact h.startOp none rfl (Or.inl ⟨rfl, rfl⟩)

/-- A write that failed: its handler only looks at the flag. -/
theorem writeHandler_failed (h : Between s k n) {ec : ErrorCode} (hh : s.writeHandler side k (some ec) = .ok t) :
    Chain t := by
  rcases Socket.writeHandler_cases hh with ⟨-, rfl⟩ | ⟨-, hec, -⟩
  · exact h.chain
  · cases hec

theorem connectToEndpoints (h : Between s k (5 * k + 1)) (entries : List Entry) :
    Chain (s.connectToEndpoints k entries) := by
  unfold Socket.connectToEndpoints
  split
  · exact h.startOp _ rfl (Or.inl ⟨rfl, rfl⟩)
  · exact (h.frame [] (t := { s with serverSocket := .opened }) rfl rfl rfl
      fun _ hb => nomatch hb).startOp none rfl (Or.inl ⟨rfl, rfl⟩)

theorem resolveHandler (h : Between s k (5 * k + 1)) (ec : Option ErrorCode) (entries : List Entry) :
    Chain (s.resolveHandler k ec entries) := by
  rcases Socket.resolveHandler_cases s k ec entries with
    ⟨hr, -⟩ | hr | ⟨-, -, hr⟩ <;> rw [hr]
  · exact h.chain
  · exact h.close
  · exact h.connectToEndpoints entries

theorem connectHandler (h : Between s k (5 * k + 1)) (ec : Option ErrorCode) : Chain (s.connectHandler k ec) := by
  rcases Socket.connectHandler_cases s k ec with ⟨hr, -⟩ | hr | ⟨-, -, hr⟩ <;> rw [hr]
  · exact h.chain
  · exact h.close
  · exact h.sendMessageToServer

/-- The completion of a low-level step keeps the chain: the operation goes on, or its handler comes next. -/
theorem resume {op : Op} {c : Completion} (h : Between s op.msgId op.reached) (hr : s.resume op c = .ok t) :
    Chain t := by
  cases op with
  | readHeader side k =>
    have finished : ∀ ec, milestone (.finish (.readHeader side k) ec s.now) = none := fun _ => rfl
    cases c with
    | success data endpoints =>
      simp only [Socket.resume] at hr
      split at hr
      · exact ((h.append side data).finish _ (finished none)).headerHandler hr
      · rw [← Except.ok.inj hr]
        exact (h.append side data).again rfl rfl
    | failure ec => exact (h.finish _ (finished (some ec))).headerHandler hr
  | readBody side k limit httpBody =>
    have hn : Between s k (Op.reached (.readHeader side k)) := by cases side <;> exact h
    cases c with
    | success data endpoints =>
      simp only [Socket.resume] at hr
      split at hr
      · exact (hn.finish (.readBody side k limit (httpBody ++ data)) rfl).sharedHandler hr
      · rw [← Except.ok.inj hr]
        exact h.again rfl (by cases side <;> rfl)
    | failure ec => exact (hn.finish (.readBody side k limit httpBody) rfl).sharedHandler hr
  | resolve k host =>
    cases c with
    | success data endpoints =>
      rw [← Except.ok.inj hr]
      exact (h.finish _ rfl).resolveHandler none _
    | failure ec =>
      rw [← Except.ok.inj hr]
      exact (h.finish _ rfl).resolveHandler (some ec) []
  | connect k entries =>
    have socket : ∀ socket, Between { s with serverSocket := socket } k (5 * k + 1) := fun socket =>
      h.frame [] rfl rfl rfl fun _ hb => absurd hb List.not_mem_nil
    cases c with
    | success data endpoints =>
      cases entries <;> rw [← Except.ok.inj hr]
      · exact (h.finish _ rfl).connectHandler none
      · exact ((socket _).finish _ rfl).connectHandler none
    | failure ec =>
      rcases entries with _ | ⟨entry, _ | ⟨next, rest⟩⟩ <;> rw [← Except.ok.inj hr]
      · exact (h.finish _ rfl).connectHandler (some ec)
      · exact (h.finish _ rfl).connectHandler (some ec)
      · exact (socket .opened).again rfl rfl
  | write side k rest =>
    cases c with
    | success data endpoints =>
      simp only [Socket.resume] at hr
      split at hr
      · rename_i hrest
        rw [hrest] at hr
        have hn : Between s k (Op.reached (.write side k [])) := by cases side <;> exact h
        exact (hn.finish_write (by cases side <;> rfl)).writeHandler hr
      · rw [← Except.ok.inj hr]
        exact h.again rfl (by cases side <;> rfl)
    | failure ec => exact (h.finish _ (by cases side <;> simp [milestone])).writeHandler_failed hr

end Between

namespace Chain
variable {s t : Socket}

/-- A change of a session that keeps what the chain speaks of. -/
theorem frame (h : Chain s) (newer : List Action) {f : Outstanding → Outstanding} (hf : ∀ o, (f o).op = o.op)
    (ho : t.outstanding = s.outstanding.map f) (hm : t.messages = s.messages) (ht : t.trace = newer ++ s.trace)
    (hnew : ∀ a ∈ newer, milestone a = none ∧ ∀ side k data, a ≠ .sent side k data) : Chain t where
  single := by rw [ho, List.length_map]; exact h.single
  current o ho' := by
    rw [ho] at ho'
    obtain ⟨o, hmem, rfl⟩ := List.mem_map.mp ho'
    rw [hf, hm]
    exact h.current o hmem
  schedule := by
    obtain ⟨n, hn, hr⟩ := h.schedule
    refine ⟨n, ?_, fun o ho' => ?_⟩
    · rw [ht, milestones, List.filterMap_append, List.filterMap_eq_nil_iff.mpr fun a ha => (hnew a ha).1,
        List.nil_append]
      exact hn
    · rw [ho] at ho'
      obtain ⟨o, hmem, rfl⟩ := List.mem_map.mp ho'
      rw [hf]
      exact hr o hmem
  sent := by
    rw [ht, always_append]
    · exact h.sent
    · intro a ha older
      cases a with
      | sent side k data => exact absurd rfl ((hnew _ ha).2 side k data)
      | _ => trivial

/-- A change of the timer, the clock and the connection of the client. -/
theorem quiet (h : Chain s) (ho : t.outstanding = s.outstanding) (hm : t.messages = s.messages)
    (ht : t.trace = s.trace) : Chain t :=
  h.frame [] (f := id) (fun _ => rfl) (by rw [ho, List.map_id]) hm ht fun _ hb => nomatch hb

theorem close (h : Chain s) : Chain s.close := by
  cases hs : s.stopped
  · refine h.frame [.stop] (f := s.closing) (fun _ => Socket.closing_op) ?_ Socket.close_messages ?_ ?_
    · rw [Socket.close_of_not_stopped hs]
    · rw [Socket.close_of_not_stopped hs]
      rfl
    · intro a ha
      rw [List.mem_singleton.mp ha]
      exact ⟨rfl, fun _ _ _ => nofun⟩
  · rw [Socket.close_of_stopped hs]
    exact h

theorem log (h : Chain s) {a : Action} (ha : milestone a = none) (hs : ∀ side k data, a ≠ .sent side k data) :
    Chain (s.log a) :=
  h.frame [a] (f := id) (fun _ => rfl) (List.map_id _).symm rfl rfl fun b hb => by
    rw [List.mem_singleton.mp hb]
    exact ⟨ha, hs⟩

theorem handleWait (h : Chain s) (ec : Option ErrorCode) : Chain (s.handleWait ec) := by
  rcases Socket.handleWait_cases s ec with hw | ⟨-, -, hw⟩ | ⟨-, -, hw⟩ <;> rw [hw]
  · exact h
  · exact (h.log (a := .timedOut s.now) rfl fun _ _ _ => nofun).close
  · exact (h.log (a := .wait) rfl fun _ _ _ => nofun).quiet rfl rfl rfl

theorem between (h : Chain s) {o : Outstanding} (ho : s.outstanding = [o]) :
    Between { s with outstanding := [] } o.op.msgId o.op.reached where
  idle := rfl
  current := h.current o (ho ▸ List.mem_singleton_self o)
  schedule := by
    obtain ⟨n, hn, hr⟩ := h.schedule
    rw [hr o (ho ▸ List.mem_singleton_self o)]
    exact hn
  sent := h.sent

theorem io (h : Chain s) {op : Op} {c : Completion} (ho : s.outstanding = [⟨op, none⟩]) :
    Chain { s with outstanding := [⟨op, some c⟩], trace := op.shows c ++ s.trace } := by
  have b := h.between ho
  have one : ∀ {log : List Action}, milestones log = (List.range op.reached).reverse → Always SentInWrite log →
      Chain { s with outstanding := [⟨op, some c⟩], trace := log } := fun hl hs =>
    { single := Nat.le_refl 1
      current := fun o ho' => by
        rw [List.mem_singleton.mp ho']
        exact b.current
      schedule := ⟨_, hl, fun o ho' => by rw [List.mem_singleton.mp ho']⟩
      sent := hs }
  cases c with
  | failure ec => cases op <;> exact one b.schedule b.sent
  | success data endpoints =>
    cases op with
    | readHeader | readBody | resolve => exact one b.schedule ⟨trivial, b.sent⟩
    | connect => exact one b.schedule b.sent
    | write side k rest =>
      -- The last place passed is the start of this write.
      refine one b.schedule ⟨⟨rest, (congrArg List.head? b.schedule).trans ?_⟩, b.sent⟩
      cases side <;> simp [Op.reached, milestone, List.range_succ]

theorem move {e : Event} (h : Chain s) (hs : session.Step s e t) : Move s e t := .of_step h.single hs

theorem step {e : Event} (h : Chain s) (hs : session.Step s e t) : Chain t := by
  cases h.move hs with
  | io ho hc => exact h.io ho
  | dispatch ho hr => exact (h.between ho).resume hr
  | close => exact h.close
  | @wait ec queue =>
    exact (h.quiet (t := { s with timer := { s.timer with queue := queue } }) rfl rfl rfl).handleWait ec
  | expire => exact h.quiet rfl rfl rfl
  | elapse d => exact h.quiet rfl rfl rfl
  | disconnect => exact h.quiet rfl rfl rfl

end Chain

theorem start_chain (now : Nat) : Chain (Socket.new now).start where
  single := Nat.le_refl 1
  current o ho := by
    rw [List.mem_singleton.mp ho]
    rfl
  schedule := ⟨1, rfl, fun o ho => by rw [List.mem_singleton.mp ho]; rfl⟩
  sent := ⟨trivial, trivial, trivial⟩

theorem reachable_chain {s : Socket} (h : session.Reachable s) : Chain s :=
  h.invariant (fun _ ⟨now, hs⟩ => hs ▸ start_chain now) fun _ _ _ _ hc hs => hc.step hs

/-! ### The places that a log passed -/

/-- The places that any earlier log passed. -/
theorem milestones_older {log older : List Action} (newer : List Action) {n : Nat} (h : milestones log = (List.range n).reverse)
    (hl : log = newer ++ older) : ∃ m, milestones older = (List.range m).reverse := by
  have hpre : (milestones older).reverse <+: List.range n := by
    rw [← List.reverse_reverse (List.range n), ← h, hl]
    simp only [milestones, List.filterMap_append, List.reverse_append]
    exact List.prefix_append _ _
  rw [List.prefix_iff_eq_take, List.take_range] at hpre
  exact ⟨_, by rw [← hpre, List.reverse_reverse]⟩

/-- The places before an action that passes one. -/
theorem milestones_before {log newer older : List Action} {a : Action} {m n : Nat}
    (h : milestones log = (List.range n).reverse) (hl : log = newer ++ a :: older) (ha : milestone a = some m) :
    milestones older = (List.range m).reverse := by
  obtain ⟨j, hj⟩ := milestones_older (newer ++ [a]) h (by rw [hl, List.append_assoc]; rfl)
  obtain ⟨j', hj'⟩ := milestones_older newer h hl
  rw [milestones_cons_some' ha, hj] at hj'
  have hlen := congrArg List.length hj'
  simp only [List.length_cons, List.length_reverse, List.length_range] at hlen
  rw [← hlen, List.range_succ, List.reverse_append] at hj'
  rw [hj, (List.cons.inj hj').1]

/-- The newest action passes the last place of the log. -/
theorem milestones_cons_inv {log : List Action} {a : Action} {m n : Nat}
    (h : milestones (a :: log) = (List.range n).reverse) (ha : milestone a = some m) :
    n = m + 1 ∧ milestones log = (List.range m).reverse := by
  have before : milestones log = (List.range m).reverse := milestones_before h (List.nil_append _).symm ha
  have hlen := congrArg List.length h
  rw [milestones_cons_some' ha, before] at hlen
  simp only [List.length_cons, List.length_reverse, List.length_range] at hlen
  exact ⟨hlen.symm, before⟩

/-! ### A sample round -/

def sampleRequest : Bytes := ascii "GET http://a.com/ HTTP/1.1\r\nHost: A.com\r\n\r\n"

def sampleReply : Bytes := ascii "HTTP/1.1 200 OK\r\nContent-Length: 3\r\n\r\nabc"

/-- A round: the request, the connection to the server, the request sent on, the reply in two segments, the
    reply sent on. -/
def sampleRound : List Event :=
  [.io 0 (.success sampleRequest []), .dispatch 0, .io 0 (.success [] [⟨1, 80⟩]), .dispatch 0,
    .io 0 (.success [] []), .dispatch 0, .io 0 (.success sampleRequest []), .dispatch 0,
    .io 0 (.success (sampleReply.take 39) []), .dispatch 0, .io 0 (.success (sampleReply.drop 39) []), .dispatch 0,
    .io 0 (.success sampleReply []), .dispatch 0]

/-- The state after the sample round. -/
def afterSample : Socket := (session.exec (Socket.new 0).start sampleRound).getD (Socket.new 0).start

theorem afterSample_reachable : session.Reachable afterSample := (session_start 0).exec_getD

end HttpProxy
