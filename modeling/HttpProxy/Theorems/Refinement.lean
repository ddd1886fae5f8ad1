import HttpProxy.Relay
import HttpProxy.Library.Simulation
import HttpProxy.Theorems.Transparency

/-! A session is a relay between its client and the servers. What it takes off its sockets and what is sent on them,
    in the order in which it happens, are the transfers of a relay that begins with the client: a message is stored
    before it is passed on, each peer has its turn, and no byte is invented, lost or brought out of order. -/

namespace HttpProxy
open Log Search Machine

instance : Paired Side := ⟨Side.other, Side.other_other⟩

/-- The transfers that the log of a session shows. -/
def transfer : Action → Option (Transfer Side Byte)
  | .taken side data => some (.took side data)
  | .sent side _ data => some (.gave side data)
  | _ => none

def transfers (log : List Action) : List (Transfer Side Byte) := log.filterMap transfer

/-- The bytes that are held while an operation is outstanding, whose they are, and whether they are being passed
    on. -/
def Outstanding.stage (s : Socket) (o : Outstanding) : Side × Bool × Bytes :=
  match o.op with
  | .readHeader side k | .readBody side k _ _ => (side, false, s.message side k ++ o.inFlight side)
  | .resolve k _ | .connect k _ => (.client, false, s.message .client k)
  | .write side _ rest => (side.other, true, rest.drop (o.completion.elim [] Completion.data).length)

/-- A session with an outstanding operation stands where the relay does. One that has none has come to its end,
    and what the relay still holds is not passed on any more. -/
structure Mirrors (s : Socket) (r : Relay Side Byte) : Prop where
  log : transfers s.trace = r.log
  stage : ∀ o ∈ s.outstanding, o.stage s = (r.source, r.forwarding, r.held)
  fresh : ∀ o ∈ s.outstanding, r.source = .client → s.message .server o.op.msgId = []

/-- A session between two operations, when the message of a side is stored as far as it is read. -/
structure Stored (s : Socket) (r : Relay Side Byte) (side : Side) (k : Nat) : Prop where
  idle : s.outstanding = []
  log : transfers s.trace = r.log
  source : r.source = side
  reading : r.forwarding = false
  held : r.held = s.message side k
  fresh : side = .client → s.message .server k = []

/-- The relay comes to where the session is. -/
abbrev Answered (r : Relay Side Byte) (s : Socket) : Prop := (relay Byte Side.client).Answers Mirrors r s

namespace Stored
variable {s t : Socket} {r : Relay Side Byte} {side : Side} {k n : Nat} {ec : Option ErrorCode}

/-- A session without an operation. -/
theorem dead (ho : t.outstanding = []) (ht : transfers t.trace = r.log) : Answered r t := by
  refine .stay ⟨ht, fun o hm => ?_, fun o hm => ?_⟩ <;>
    · rw [ho] at hm
      cases hm

/-- A change that stores nothing and transfers nothing. -/
theorem frame (h : Stored s r side k) (ho : t.outstanding = s.outstanding) (hm : t.messages = s.messages)
    (ht : transfers t.trace = transfers s.trace) : Stored t r side k where
  idle := ho.trans h.idle
  log := ht.trans h.log
  source := h.source
  reading := h.reading
  held := by rw [h.held, Socket.message_congr hm]
  fresh hs := by rw [Socket.message_congr hm, h.fresh hs]

theorem finish (h : Stored s r side k) (op : Op) (ec : Option ErrorCode) : Stored (s.finish op ec) r side k :=
  h.frame rfl rfl rfl

theorem close (h : Stored s r side k) : Answered r s.close := by
  refine dead (Socket.close_outstanding_nil h.idle) ?_
  cases hs : s.stopped
  · rw [Socket.close_of_not_stopped hs]
    exact h.log
  · rw [Socket.close_of_stopped hs]
    exact h.log

/-- The start of an operation that moves no byte. -/
theorem startOp (h : Stored s r side k) (op : Op) (q : Option Completion) (ha : transfer (.start op) = none)
    (hk : op.msgId = k) (hs : Outstanding.stage s ⟨op, q⟩ = (side, false, s.message side k)) :
    Answered r (s.startOp op q) := by
  refine .stay ⟨(List.filterMap_cons_none ha).trans h.log, fun o ho => ?_, fun o ho hc => ?_⟩
  · rw [Socket.mem_startOp h.idle ho, h.source, h.reading, h.held]
    exact hs
  · rw [Socket.mem_startOp h.idle ho, hk]
    exact h.fresh (h.source.symm.trans hc)

/-- The start of a write is the turn of the relay. -/
theorem startWrite (h : Stored s r side k) (q : Option Completion) (hq : q.elim [] Completion.data = []) :
    Answered r (s.startOp (.write side.other k (s.message side k)) q) := by
  have turned : (relay Byte Side.client).Step r .turn r.turn := if_pos h.reading
  refine .step turned ⟨h.log, fun o ho => ?_, fun o ho hc => ?_⟩
  · rw [Socket.mem_startOp h.idle ho]
    simp [Outstanding.stage, Side.other_other, hq, Relay.turn, h.source, h.held]
  · rw [Socket.mem_startOp h.idle ho]
    exact h.fresh (h.source.symm.trans hc)

/-- A write that starts with its completion queued has nothing to send. -/
theorem startWrite_data (msg : Bytes) :
    (if msg = [] then some (Completion.success [] []) else none).elim [] Completion.data = [] := by
  split <;> rfl

theorem callback (h : Stored s r side k) : Answered r (s.callback side k) := by
  cases side with
  | client =>
    rcases Socket.callback_client_cases s k with hr | ⟨-, -, hr⟩ <;> rw [hr]
    · exact h.startOp (.resolve k s.currHost) none rfl rfl rfl
    · exact h.startWrite _ (startWrite_data _)
  | server => exact h.startWrite _ (startWrite_data _)

theorem readBody (h : Stored s r side k) {header : Bytes} (hb : s.readBody side k header = .ok t) : Answered r t := by
  rcases Socket.readBody_cases hb with ⟨-, rfl⟩ | ⟨-, rfl⟩ | ⟨-, limit, q, rfl, hq⟩
  · exact dead h.idle h.log
  · exact h.callback
  · refine h.startOp (.readBody side k limit []) q rfl rfl ?_
    rcases hq with rfl | ⟨-, rfl⟩ <;> simp [Outstanding.stage, Outstanding.inFlight, Completion.data]

theorem headerHandler (h : Stored s r side k) (hh : s.headerHandler side k ec n = .ok t) : Answered r t := by
  cases side with
  | client =>
    rcases Socket.clientHeaderHandler_cases hh with ⟨rfl, -⟩ | ⟨rfl, -, -⟩ | ⟨-, -, -, host, -, hb⟩
    · exact dead h.idle h.log
    · exact (h.frame (t := s.cancelTimer) rfl rfl rfl).close
    · exact (h.frame (t := { s.cancelTimer with currHost := host }.log (.host k (s.message .client k) host))
        rfl rfl rfl).readBody hb
  | server =>
    rcases Socket.serverHeaderHandler_cases hh with ⟨rfl, -⟩ | ⟨rfl, -, -⟩ | ⟨-, -, hb⟩
    · exact dead h.idle h.log
    · exact h.close
    · exact h.readBody hb

theorem connectToEndpoints (h : Stored s r .client k) (entries : List Entry) :
    Answered r (s.connectToEndpoints k entries) := by
  unfold Socket.connectToEndpoints
  split
  · exact h.startOp (.connect k []) _ rfl rfl rfl
  · exact (h.frame (t := { s with serverSocket := .opened }) rfl rfl rfl).startOp (.connect k entries) none rfl rfl rfl

theorem resolveHandler (h : Stored s r .client k) (ec : Option ErrorCode) (entries : List Entry) :
    Answered r (s.resolveHandler k ec entries) := by
  rcases Socket.resolveHandler_cases s k ec entries with ⟨hr, -⟩ | hr | ⟨-, -, hr⟩ <;> rw [hr]
  · exact dead h.idle h.log
  · exact h.close
  · exact h.connectToEndpoints entries

theorem connectHandler (h : Stored s r .client k) (ec : Option ErrorCode) : Answered r (s.connectHandler k ec) := by
  rcases Socket.connectHandler_cases s k ec with ⟨hr, -⟩ | hr | ⟨-, -, hr⟩ <;> rw [hr]
  · exact dead h.idle h.log
  · exact h.close
  · exact h.startWrite _ (startWrite_data _)

end Stored

/-! ### The completions -/

namespace Mirrors
variable {s t : Socket} {r : Relay Side Byte} {op : Op} {c : Completion}

theorem at_stage (h : Mirrors s r) {o : Outstanding} {side : Side} {forwarding : Bool} {held : Bytes}
    (ho : s.outstanding = [o]) (hs : o.stage s = (side, forwarding, held)) :
    r.source = side ∧ r.forwarding = forwarding ∧ r.held = held := by
  simpa using (h.stage o (ho ▸ List.mem_singleton_self o)).symm.trans hs

/-- A read that is over has stored what it took. -/
theorem appended (h : Mirrors s r) (chain : Chain s) {o : Outstanding} (side : Side) (data : Bytes)
    (ho : s.outstanding = [o]) (hs : o.stage s = (side, false, s.message side o.op.msgId ++ data)) :
    Stored ({ s with outstanding := [] }.append side o.op.msgId data) r side o.op.msgId := by
  have mem : o ∈ s.outstanding := ho ▸ List.mem_singleton_self o
  have hk : o.op.msgId < s.messages.length := chain.current o mem ▸ Nat.lt_succ_self _
  obtain ⟨source, reading, held⟩ := h.at_stage ho hs
  refine ⟨rfl, h.log, source, reading, ?_, fun hc => ?_⟩
  · rw [held, Socket.message_append (s := { s with outstanding := [] }) hk data]
    rfl
  · rw [Socket.message_append_of_ne (s := { s with outstanding := [] }) (by rw [hc]; decide)]
    exact h.fresh o mem (source.trans hc)

/-- An operation that is over and held nothing outside the messages. -/
theorem stored (h : Mirrors s r) {o : Outstanding} (side : Side) (ho : s.outstanding = [o])
    (hs : o.stage s = (side, false, s.message side o.op.msgId)) :
    Stored { s with outstanding := [] } r side o.op.msgId := by
  obtain ⟨source, reading, held⟩ := h.at_stage ho hs
  exact ⟨rfl, h.log, source, reading, held,
    fun hc => h.fresh o (ho ▸ List.mem_singleton_self o) (source.trans hc)⟩

/-- An operation that goes on holds what it held. -/
theorem again (h : Mirrors s r) {o : Outstanding} (o' : Outstanding) (ho : s.outstanding = [o])
    (ho' : t.outstanding = [o']) (ht : t.trace = s.trace) (hk : o'.op.msgId = o.op.msgId) (hs : o'.stage t = o.stage s)
    (hf : r.source = .client → t.message .server o.op.msgId = s.message .server o.op.msgId) : Mirrors t r := by
  have mem : o ∈ s.outstanding := ho ▸ List.mem_singleton_self o
  refine ⟨by rw [ht, h.log], fun x hx => ?_, fun x hx hc => ?_⟩ <;>
    rw [ho'] at hx <;> rw [List.mem_singleton.mp hx]
  · rw [hs]
    exact h.stage o mem
  · rw [hk, hf hc]
    exact h.fresh o mem hc

/-- The read of a message begins with nothing stored. -/
theorem begin_read {side : Side} {k : Nat} (hl : transfers t.trace = r.log) (source : r.source = side)
    (reading : r.forwarding = false) (held : r.held = []) (ho : t.outstanding = [⟨.readHeader side k, none⟩])
    (hm : t.message side k = []) (hf : side = .client → t.message .server k = []) : Mirrors t r := by
  refine ⟨hl, fun o hmem => ?_, fun o hmem hc => ?_⟩ <;>
    rw [ho] at hmem <;> rw [List.mem_singleton.mp hmem]
  · simp [Outstanding.stage, Outstanding.inFlight, hm, source, reading, held]
  · exact hf (source.symm.trans hc)

/-- A write that is over has sent all that was held: its target has its turn, or the next round begins. -/
theorem writeHandler (h : Mirrors s r) (chain : Chain s) {side : Side} {k : Nat} {rest data : Bytes}
    {endpoints : List Endpoint} (ho : s.outstanding = [⟨.write side k rest, some (.success data endpoints)⟩])
    (hrest : rest.drop data.length = []) {op : Op}
    (hr : ({ s with outstanding := [] }.finish op none).writeHandler side k none = .ok t) : Answered r t := by
  have mem : (⟨.write side k rest, some (.success data endpoints)⟩ : Outstanding) ∈ s.outstanding :=
    ho ▸ List.mem_singleton_self _
  have current : s.messages.length = k + 1 := (chain.current _ mem).symm
  have sent : Outstanding.stage s ⟨.write side k rest, some (.success data endpoints)⟩ = (side.other, true, []) := by
    simp [Outstanding.stage, Completion.data, hrest]
  obtain ⟨source, forwarding, held⟩ := h.at_stage ho sent
  have passed : (relay Byte Side.client).Step r .pass (r.pass held) := dif_pos ⟨forwarding, held⟩
  have target : (r.pass held).source = side := by
    show Side.other r.source = side
    rw [source, Side.other_other]
  rcases Socket.writeHandler_cases hr with ⟨-, rfl⟩ | ⟨-, -, ⟨rfl, rfl⟩ | ⟨rfl, rfl⟩⟩
  · exact Stored.dead rfl h.log
  · -- The entry of the next round is empty.
    have empty : ∀ {u : Socket}, u.messages = s.messages ++ [([], [])] → ∀ side', u.message side' (k + 1) = [] := by
      intro u hu side'
      cases side' <;> simp [Socket.message, Side.text, List.getD_eq_getElem?_getD, hu, current]
    refine .step passed (begin_read h.log target rfl rfl (k := k + 1) ?_ (empty rfl _) fun _ => empty rfl _)
    simp [Socket.getMessageFromClient, current]
  · exact .step passed (begin_read h.log target rfl rfl rfl (h.fresh _ mem source) fun hc => by cases hc)

/-- A completion moves the relay on to where its handler leaves the session. -/
theorem resume (h : Mirrors s r) (chain : Chain s) (ho : s.outstanding = [⟨op, some c⟩])
    (hr : { s with outstanding := [] }.resume op c = .ok t) : Answered r t := by
  have hk : op.msgId < s.messages.length := chain.current _ (ho ▸ List.mem_singleton_self _) ▸ Nat.lt_succ_self _
  cases op with
  | readHeader side k =>
    cases c with
    | success data endpoints =>
      have holds : Outstanding.stage s ⟨.readHeader side k, some (.success data endpoints)⟩ =
          (side, false, s.message side k ++ data) := by
        simp [Outstanding.stage, Outstanding.inFlight, Completion.data]
      simp only [Socket.resume] at hr
      split at hr
      · exact ((h.appended chain side data ho holds).finish _ none).headerHandler hr
      · rw [← Except.ok.inj hr]
        refine .stay (h.again ⟨.readHeader side k, none⟩ ho rfl rfl rfl ?_ fun hc => ?_)
        · have text : ({ s with outstanding := [] }.append side k data).message side k = s.message side k ++ data :=
            Socket.message_append (s := { s with outstanding := [] }) hk data
          simp only [Outstanding.stage, Outstanding.inFlight, ↓reduceIte, Option.elim_none, Option.elim_some,
            Completion.data, List.append_nil]
          exact congrArg (fun m => (side, false, m)) text
        · have hs : side = .client := (h.at_stage ho holds).1.symm.trans hc
          exact Socket.message_append_of_ne (s := { s with outstanding := [] }) (by rw [hs]; decide) data
    | failure ec =>
      have stored := h.stored side ho (by simp [Outstanding.stage, Outstanding.inFlight, Completion.data, Op.msgId])
      exact (stored.finish _ (some ec)).headerHandler hr
  | readBody side k limit httpBody =>
    -- The handler appends all that was read into `http_body`.
    have shared : ∀ (op : Op) (ec : Option ErrorCode) (httpBody' : Bytes),
        Outstanding.stage s ⟨.readBody side k limit httpBody, some c⟩ = (side, false, s.message side k ++ httpBody') →
        ({ s with outstanding := [] }.finish op ec).sharedHandler side k httpBody' ec = .ok t → Answered r t := by
      intro op ec httpBody' hs hh
      have stored := (h.appended chain side httpBody' ho hs).finish op ec
      rcases Socket.sharedHandler_cases hh with ⟨-, rfl⟩ | ⟨-, rfl⟩
      · exact stored.callback
      · exact Stored.dead rfl stored.log
    cases c with
    | success data endpoints =>
      simp only [Socket.resume] at hr
      split at hr
      · refine shared _ none (httpBody ++ data) ?_ hr
        simp [Outstanding.stage, Outstanding.inFlight, Completion.data]
      · rw [← Except.ok.inj hr]
        refine .stay (h.again ⟨.readBody side k limit (httpBody ++ data), none⟩ ho rfl rfl rfl ?_ fun _ => rfl)
        simp only [Outstanding.stage, Outstanding.inFlight, ↓reduceIte, Option.elim_none, Option.elim_some,
          Completion.data, List.append_nil]
        rfl
    | failure ec =>
      refine shared _ (some ec) httpBody ?_ hr
      simp [Outstanding.stage, Outstanding.inFlight, Completion.data]
  | resolve k host =>
    have stored := h.stored .client ho rfl
    cases c <;> rw [← Except.ok.inj hr]
    · exact (stored.finish _ none).resolveHandler none _
    · exact (stored.finish _ _).resolveHandler _ []
  | connect k entries =>
    have stored : ∀ socket, Stored { s with serverSocket := socket, outstanding := [] } r .client k := fun _ =>
      (h.stored .client ho rfl).frame rfl rfl rfl
    cases c with
    | success data endpoints =>
      cases entries <;> rw [← Except.ok.inj hr]
      · exact ((stored _).finish _ none).connectHandler none
      · exact ((stored _).finish _ none).connectHandler none
    | failure ec =>
      rcases entries with _ | ⟨entry, _ | ⟨next, rest⟩⟩ <;> rw [← Except.ok.inj hr]
      · exact ((stored _).finish _ _).connectHandler _
      · exact ((stored _).finish _ _).connectHandler _
      · exact .stay (h.again ⟨.connect k (next :: rest), none⟩ ho rfl rfl rfl rfl fun _ => rfl)
  | write side k rest =>
    cases c with
    | success data endpoints =>
      simp only [Socket.resume] at hr
      split at hr
      · rename_i hrest
        exact h.writeHandler chain ho hrest hr
      · rw [← Except.ok.inj hr]
        refine .stay (h.again ⟨.write side k (rest.drop data.length), none⟩ ho rfl rfl rfl ?_ fun _ => rfl)
        simp [Outstanding.stage, Completion.data]
    | failure ec =>
      -- A write that failed: its handler only looks at the flag.
      rcases Socket.writeHandler_cases hr with ⟨-, rfl⟩ | ⟨-, hec, -⟩
      · exact Stored.dead rfl h.log
      · cases hec

/-- A change that transfers nothing and leaves what is held. -/
theorem frame (h : Mirrors s r) {f : Outstanding → Outstanding} (hf : ∀ o, (f o).op = o.op ∧ (f o).stage s = o.stage s)
    (ho : t.outstanding = s.outstanding.map f) (hm : t.messages = s.messages)
    (ht : transfers t.trace = transfers s.trace) : Mirrors t r := by
  have same : ∀ o, Outstanding.stage t o = Outstanding.stage s o := by
    intro o
    simp only [Outstanding.stage, Socket.message_congr hm]
  refine ⟨ht.trans h.log, fun o ho' => ?_, fun o ho' hc => ?_⟩ <;>
    rw [ho] at ho' <;> obtain ⟨o, hmem, rfl⟩ := List.mem_map.mp ho'
  · rw [same, (hf o).2]
    exact h.stage o hmem
  · rw [(hf o).1, Socket.message_congr hm]
    exact h.fresh o hmem hc

theorem quiet (h : Mirrors s r) (ho : t.outstanding = s.outstanding) (hm : t.messages = s.messages)
    (ht : transfers t.trace = transfers s.trace) : Mirrors t r :=
  h.frame (f := id) (fun _ => ⟨rfl, rfl⟩) (by rw [ho, List.map_id]) hm ht

/-- What is taken off a socket goes into the relay. -/
theorem take (h : Mirrors s r) {side : Side} {data : Bytes} {endpoints : List Endpoint} {held : Bytes}
    (ho : s.outstanding = [⟨op, none⟩]) (hs : Outstanding.stage s ⟨op, none⟩ = (side, false, held))
    (hs' : Outstanding.stage s ⟨op, some (.success data endpoints)⟩ = (side, false, held ++ data)) :
    Answered r { s with outstanding := [⟨op, some (.success data endpoints)⟩],
                        trace := .taken side data :: s.trace } := by
  obtain ⟨source, reading, hheld⟩ := h.at_stage ho hs
  have took : (relay Byte Side.client).Step r (.take data) (r.take reading data) := dif_pos reading
  refine .step took ⟨?_, fun o ho' => ?_, fun o ho' hc => ?_⟩
  · show .took side data :: transfers s.trace = .took r.source data :: r.log
    rw [h.log, source]
  · rw [List.mem_singleton.mp ho']
    show Outstanding.stage s _ = (r.source, false, r.held ++ data)
    rw [hs', source, hheld]
  · rw [List.mem_singleton.mp ho']
    exact h.fresh ⟨_, none⟩ (ho ▸ List.mem_singleton_self _) hc

/-- What is sent on a socket comes out of the relay. -/
theorem give (h : Mirrors s r) {side : Side} {k : Nat} {rest data : Bytes} {endpoints : List Endpoint}
    (ho : s.outstanding = [⟨.write side k rest, none⟩]) (hdata : data <+: rest) :
    Answered r { s with outstanding := [⟨.write side k rest, some (.success data endpoints)⟩],
                        trace := .sent side k data :: s.trace } := by
  obtain ⟨source, forwarding, held⟩ := h.at_stage ho rfl
  have held : r.held = rest := held
  have pre : data <+: r.held := held.symm ▸ hdata
  have gave : (relay Byte Side.client).Step r (.give data) (r.give data pre) := dif_pos ⟨forwarding, pre⟩
  refine .step gave ⟨?_, fun o ho' => ?_, fun o ho' hc => ?_⟩
  · show .gave side data :: transfers s.trace = .gave (Side.other r.source) data :: r.log
    rw [h.log, source, Side.other_other]
  · rw [List.mem_singleton.mp ho']
    show (side.other, true, rest.drop data.length) = (r.source, true, r.held.drop data.length)
    rw [source, held]
  · rw [List.mem_singleton.mp ho']
    exact h.fresh ⟨_, none⟩ (ho ▸ List.mem_singleton_self _) hc

/-- What passes a socket passes the relay, and nothing else does. -/
theorem io (h : Mirrors s r) (ho : s.outstanding = [⟨op, none⟩]) (hc : op.allows c = true) :
    Answered r { s with outstanding := [⟨op, some c⟩], trace := op.shows c ++ s.trace } := by
  cases c with
  | failure ec =>
    have aborted : Mirrors { s with outstanding := [⟨op, some (.failure ec)⟩] } r := by
      refine h.again ⟨op, some (.failure ec)⟩ ho rfl rfl rfl ?_ fun _ => rfl
      cases op <;> simp [Outstanding.stage, Outstanding.inFlight, Completion.data, Socket.message]
    cases op <;> exact .stay aborted
  | success data endpoints =>
    cases op with
    | readHeader side k =>
      exact h.take ho (by simp [Outstanding.stage, Outstanding.inFlight]; rfl)
        (by simp [Outstanding.stage, Outstanding.inFlight, Completion.data])
    | readBody side k limit httpBody =>
      exact h.take ho (by simp [Outstanding.stage, Outstanding.inFlight]; rfl)
        (by simp [Outstanding.stage, Outstanding.inFlight, Completion.data])
    | resolve k host =>
      have moved : Mirrors { s with outstanding := [⟨.resolve k host, some (.success data endpoints)⟩] } r :=
        h.again ⟨.resolve k host, some (.success data endpoints)⟩ ho rfl rfl rfl rfl fun _ => rfl
      exact .stay (moved.quiet rfl rfl rfl)
    | connect k entries =>
      exact .stay (h.again ⟨.connect k entries, some (.success data endpoints)⟩ ho rfl rfl rfl rfl fun _ => rfl)
    | write side k rest =>
      simp only [Op.allows, Bool.and_eq_true, List.isPrefixOf_iff_prefix] at hc
      exact h.give ho hc.1.2

/-- An operation that is aborted holds what it held. -/
theorem closing_stage (o : Outstanding) : (s.closing o).stage s = o.stage s := by
  obtain ⟨op, q⟩ := o
  rw [Socket.closing_eq]
  rcases Socket.closing_completion s ⟨op, q⟩ with hq | ⟨rfl, hq⟩ <;> rw [hq]
  cases op <;> simp [Outstanding.stage, Outstanding.inFlight, Completion.data]

theorem close (h : Mirrors s r) : Mirrors s.close r := by
  cases hs : s.stopped
  · refine h.frame (f := s.closing) (fun o => ⟨Socket.closing_op, closing_stage o⟩) ?_ Socket.close_messages ?_ <;>
      rw [Socket.close_of_not_stopped hs]
    rfl
  · rw [Socket.close_of_stopped hs]
    exact h

theorem handleWait (h : Mirrors s r) (ec : Option ErrorCode) : Mirrors (s.handleWait ec) r := by
  rcases Socket.handleWait_cases s ec with hw | ⟨-, -, hw⟩ | ⟨-, -, hw⟩ <;> rw [hw]
  · exact h
  · exact (h.quiet (t := s.log (.timedOut s.now)) rfl rfl rfl).close
  · exact h.quiet rfl rfl rfl

theorem step {e : Event} (h : Mirrors s r) (chain : Chain s) (hs : session.Step s e t) : Answered r t := by
  cases chain.move hs with
  | io ho hc => exact h.io ho hc
  | dispatch ho hr => exact h.resume chain ho hr
  | close => exact .stay h.close
  | @wait ec queue =>
    exact .stay ((h.quiet (t := { s with timer := { s.timer with queue := queue } }) rfl rfl rfl).handleWait ec)
  | expire => exact .stay (h.quiet rfl rfl rfl)
  | elapse d => exact .stay (h.quiet rfl rfl rfl)
  | disconnect => exact .stay (h.quiet rfl rfl rfl)

end Mirrors

theorem start_mirrors (now : Nat) : Mirrors (Socket.new now).start (Relay.start .client) where
  log := rfl
  stage o ho := by
    rw [List.mem_singleton.mp ho]
    rfl
  fresh o ho _ := by
    rw [List.mem_singleton.mp ho]
    rfl

/-- The relay follows the session. -/
theorem relay_follows : Follows session (relay Byte Side.client) Mirrors where
  init := fun ⟨now, hs⟩ => ⟨_, rfl, hs ▸ start_mirrors now⟩
  step hr _ hm hs := hm.step (reachable_chain hr) hs

/-! ### What the peers see -/

/-- All bytes sent on the socket of a side. -/
def sent (side : Side) : List Action → Bytes
  | [] => []
  | .sent side' _ data :: log => if side' = side then sent side log ++ data else sent side log
  | _ :: log => sent side log

theorem took_transfers (side : Side) (log : List Action) : Relay.took side (transfers log) = taken side log := by
  induction log with
  | nil => rfl
  | cons a log ih =>
    cases a with
    | taken side' data =>
      show (if side' = side then Relay.took side (transfers log) ++ data else Relay.took side (transfers log)) = _
      rw [ih, taken]
    | _ => exact ih

theorem gave_transfers (side : Side) (log : List Action) : Relay.gave side (transfers log) = sent side log := by
  induction log with
  | nil => rfl
  | cons a log ih =>
    cases a with
    | sent side' k data =>
      show (if side' = side then Relay.gave side (transfers log) ++ data else Relay.gave side (transfers log)) = _
      rw [ih, sent]
    | _ => exact ih

/-- What was taken from a side and is not sent yet is what the relay holds of it. -/
theorem Mirrors.accounts {s : Socket} {r : Relay Side Byte} (h : Mirrors s r) (side : Side) :
    taken side s.trace = sent side.other s.trace ++ if side = r.source then r.held else [] := by
  rw [← took_transfers, ← gave_transfers, h.log]
  exact r.conserved side

/-- Every state of a session is the state of a relay that begins with the client: the relay has made the transfers
    that the session shows, and while an operation is outstanding it holds the bytes that the session holds, of the
    same side and in the same direction. -/
theorem session_relays {s : Socket} (h : session.Reachable s) : ∃ r, (relay Byte Side.client).Reachable r ∧
    r.log = transfers s.trace ∧ ∀ o ∈ s.outstanding, (r.source, r.forwarding, r.held) = o.stage s := by
  obtain ⟨r, hr, hm⟩ := relay_follows.reachable h
  exact ⟨r, hr, hm.log.symm, fun o ho => (hm.stage o ho).symm⟩

/-- The sample session when the reply is sent on in part. -/
def partlySent : Socket :=
  (session.exec (Socket.new 0).start (sampleRound.take 12 ++ [.io 0 (.success (sampleReply.take 39) [])])).getD
    (Socket.new 0).start

theorem partlySent_reachable : session.Reachable partlySent := (session_start 0).exec_getD

theorem partlySent_outstanding :
    partlySent.outstanding = [⟨.write .client 0 sampleReply, some (.success (sampleReply.take 39) [])⟩] := by
  decide +kernel

theorem session_relays_sample : ∃ r, (relay Byte Side.client).Reachable r ∧
    (r.source, r.forwarding, r.held) = (.server, true, ascii "bc") := by
  obtain ⟨r, hr, -, hstage⟩ := session_relays partlySent_reachable
  have half : Outstanding.stage partlySent ⟨.write .client 0 sampleReply, some (.success (sampleReply.take 39) [])⟩ =
      (.server, true, ascii "bc") := by decide +kernel
  exact ⟨r, hr, (hstage _ (partlySent_outstanding ▸ List.mem_singleton_self _)).trans half⟩

/-- What is sent to a peer is the first part of what was taken from the other, and while an operation is
    outstanding what is missing is what the session still holds of that side; when bytes are taken from a peer,
    all that was taken from the other before them has been sent. -/
theorem end_to_end {s : Socket} (h : session.Reachable s) (side : Side) :
    sent side.other s.trace <+: taken side s.trace ∧
    (∀ o ∈ s.outstanding, taken side s.trace =
      sent side.other s.trace ++ if side = (o.stage s).1 then (o.stage s).2.2 else []) ∧
    ∀ newer older data, s.trace = newer ++ .taken side data :: older → taken side.other older = sent side older := by
  obtain ⟨r, -, hm⟩ := relay_follows.reachable h
  refine ⟨?_, fun o ho => ?_, fun newer older data hl => ?_⟩
  · rw [hm.accounts side]
    exact List.prefix_append _ _
  · rw [hm.stage o ho]
    exact hm.accounts side
  · have log : r.log = transfers newer ++ .took side data :: transfers older := by
      rw [← hm.log, hl, transfers, List.filterMap_append]
      rfl
    obtain ⟨others, -⟩ := (log ▸ r.inTurn).split
    have other : side.other ≠ side := by cases side <;> decide
    have passed : Relay.took side.other (transfers older) = Relay.gave side.other.other (transfers older) :=
      others side.other other
    rwa [took_transfers, gave_transfers, Side.other_other] at passed

theorem end_to_end_sample : taken .server partlySent.trace = sent .client partlySent.trace ++ ascii "bc" ∧
    ∀ newer older data, partlySent.trace = newer ++ .taken .server data :: older →
      taken .client older = sent .server older := by
  obtain ⟨-, accounts, turns⟩ := end_to_end partlySent_reachable .server
  have half : sampleReply.drop (sampleReply.take 39).length = ascii "bc" := by decide +kernel
  refine ⟨?_, turns⟩
  rw [← half]
  exact accounts _ (partlySent_outstanding ▸ List.mem_singleton_self _)

end HttpProxy
