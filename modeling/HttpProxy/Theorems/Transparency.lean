import HttpProxy.Theorems.Chain

/-! The bytes of both streams pass a session unchanged. What a write starts with is what was taken off the
    other socket since the round began, and the writes to a side together are all that was taken off the other
    one.

    Between the read of a byte and the write of its message the byte is in one of three places: in the string
    of the message, in the separate `http_body`, or in a completion that is still queued. -/

namespace HttpProxy
open Log

/-- All bytes taken off the socket of a side. -/
def taken (side : Side) : List Action → Bytes
  | [] => []
  | .taken side' data :: log => if side' = side then taken side log ++ data else taken side log
  | _ :: log => taken side log

/-- The bytes taken off the socket of a side since `get_message_from_client` created entry `k`. -/
def takenSince (side : Side) (k : Nat) : List Action → Bytes
  | [] => []
  | .taken side' data :: log => if side' = side then takenSince side k log ++ data else takenSince side k log
  | .start (.readHeader .client k') :: log => if k' = k then [] else takenSince side k log
  | _ :: log => takenSince side k log

/-- All that was handed to `async_write` towards a side. -/
def handed (side : Side) : List Action → Bytes
  | [] => []
  | .start (.write side' _ msg) :: log => if side' = side then handed side log ++ msg else handed side log
  | _ :: log => handed side log

/-- A write starts with the bytes of its round, and with them all bytes so far are handed on. -/
def WriteExact : Action → List Action → Prop
  | .start (.write side k msg), older =>
    msg = takenSince side.other k older ∧ handed side older ++ msg = taken side.other older
  | _, _ => True

/-- An action that moves no byte. -/
structure Neutral (a : Action) : Prop where
  taken : ∀ side log, taken side (a :: log) = taken side log
  since : ∀ side k log, takenSince side k (a :: log) = takenSince side k log
  handed : ∀ side log, handed side (a :: log) = handed side log
  exact : ∀ older, WriteExact a older

/-- The bytes that a completed step moved. -/
def Completion.data : Completion → Bytes
  | success data _ => data
  | failure _ => []

/-- The bytes of a side that an outstanding operation holds outside `messages`. -/
def Outstanding.inFlight (side : Side) : Outstanding → Bytes
  | ⟨.readHeader side' _, c⟩ => if side' = side then c.elim [] Completion.data else []
  | ⟨.readBody side' _ _ httpBody, c⟩ => if side' = side then httpBody ++ c.elim [] Completion.data else []
  | _ => []

/-- Whether the message taken from a side is already handed on in the round of an operation. -/
def Op.handedOn : Op → Side → Bool
  | write .client _ _, _ => true
  | write .server _ _, .client | readHeader .server _, .client | readBody .server _ _ _, .client => true
  | _, _ => false

structure Transparent (s : Socket) : Prop where
  writes : Always WriteExact s.trace
  onward : ∀ side, handed side.other s.trace <+: taken side s.trace
  held : ∀ o ∈ s.outstanding, ∀ side,
    takenSince side o.op.msgId s.trace = s.message side o.op.msgId ++ o.inFlight side
  total : ∀ o ∈ s.outstanding, ∀ side, taken side s.trace =
    handed side.other s.trace ++ if o.op.handedOn side then [] else takenSince side o.op.msgId s.trace

/-- A session between two operations of round `k`, with the sides whose message is handed on. -/
structure Holding (s : Socket) (k : Nat) (on : Side → Bool) : Prop where
  idle : s.outstanding = []
  current : k + 1 = s.messages.length
  writes : Always WriteExact s.trace
  held : ∀ side, takenSince side k s.trace = s.message side k
  total : ∀ side, taken side s.trace =
    handed side.other s.trace ++ if on side then [] else takenSince side k s.trace

/-- The actions that the three functions of a log speak of. -/
def Action.moves : Action → Bool
  | .taken _ _ | .start (.write _ _ _) | .start (.readHeader .client _) => true
  | _ => false

theorem neutral {a : Action} (h : a.moves = false) : Neutral a := by
  cases a with
  | taken side data => cases h
  | start op =>
    cases op with
    | write side k rest => cases h
    | readHeader side k =>
      cases side
      · cases h
      · exact ⟨fun _ _ => rfl, fun _ _ _ => rfl, fun _ _ => rfl, fun _ => trivial⟩
    | _ => exact ⟨fun _ _ => rfl, fun _ _ _ => rfl, fun _ _ => rfl, fun _ => trivial⟩
  | _ => exact ⟨fun _ _ => rfl, fun _ _ _ => rfl, fun _ _ => rfl, fun _ => trivial⟩

namespace Holding
variable {s t : Socket} {k : Nat} {side : Side} {on : Side → Bool}

theorem transparent (h : Holding s k on) : Transparent s where
  writes := h.writes
  onward side := by rw [h.total side]; exact List.prefix_append _ _
  held o ho := by rw [h.idle] at ho; cases ho
  total o ho := by rw [h.idle] at ho; cases ho

/-- A change that moves no byte. -/
theorem frame (h : Holding s k on) (ho : t.outstanding = s.outstanding) (hm : t.messages = s.messages)
    (ht : t.trace = s.trace) : Holding t k on where
  idle := ho.trans h.idle
  current := by rw [hm]; exact h.current
  writes := ht ▸ h.writes
  held side := by rw [ht, Socket.message_congr hm]; exact h.held side
  total side := by rw [ht]; exact h.total side

theorem log (h : Holding s k on) {a : Action} (ha : Neutral a) : Holding (s.log a) k on where
  idle := h.idle
  current := h.current
  writes := ⟨ha.exact _, h.writes⟩
  held side := (ha.since side k s.trace).trans (h.held side)
  total side := by
    rw [Socket.log_trace, ha.taken, ha.handed, ha.since]
    exact h.total side

theorem finish (h : Holding s k on) (op : Op) (ec : Option ErrorCode) : Holding (s.finish op ec) k on :=
  h.log (neutral rfl)

theorem close (h : Holding s k on) : Transparent s.close := by
  cases hs : s.stopped
  · have := h.log (a := .stop) (neutral rfl)
    refine (this.frame (t := s.close) ?_ Socket.close_messages ?_).transparent
    · rw [Socket.close_outstanding_nil h.idle]
      exact h.idle.symm
    · rw [Socket.close_of_not_stopped hs]
      rfl
  · rw [Socket.close_of_stopped hs]
    exact h.transparent

/-- The start of an operation that moves no byte itself. -/
theorem startOp (h : Holding s k on) {op : Op} (q : Option Completion) (hk : op.msgId = k) (hn : Neutral (.start op))
    (hon : ∀ side, op.handedOn side = on side) (hf : ∀ side, Outstanding.inFlight side ⟨op, q⟩ = []) :
    Transparent (s.startOp op q) := by
  have l := h.log hn
  have only : ∀ o ∈ (s.startOp op q).outstanding, o = ⟨op, q⟩ := fun _ => Socket.mem_startOp h.idle
  exact {
    writes := l.writes
    onward := l.transparent.onward
    held := fun o ho side => by
      rw [only o ho, hf, List.append_nil, hk]
      exact l.held side
    total := fun o ho side => by
      rw [only o ho, hon, hk]
      exact l.total side }

/-- The start of a write hands the message of the other side on. -/
theorem startWrite (h : Holding s k on) (side : Side) (q : Option Completion) (hother : on side.other = false)
    (hon : ∀ side', (Op.write side k (s.message side.other k)).handedOn side' = (on side' || side' = side.other)) :
    Transparent (s.startOp (.write side k (s.message side.other k)) q) := by
  have only : ∀ o ∈ (s.startOp (.write side k (s.message side.other k)) q).outstanding,
      o = ⟨.write side k (s.message side.other k), q⟩ := fun _ => Socket.mem_startOp h.idle
  have hand : ∀ side', handed side' (.start (.write side k (s.message side.other k)) :: s.trace) =
      if side = side' then handed side' s.trace ++ s.message side.other k else handed side' s.trace := fun _ => rfl
  have htotal := h.total side.other
  rw [hother, Side.other_other, h.held] at htotal
  have total : ∀ side', taken side' s.trace =
      handed side'.other (.start (.write side k (s.message side.other k)) :: s.trace) ++
        if on side' || side' = side.other then [] else takenSince side' k s.trace := by
    intro side'
    rw [hand]
    by_cases hs : side' = side.other
    · subst hs
      simpa [Side.other_other] using htotal
    · have hne : side ≠ side'.other := fun he => hs (by rw [he, Side.other_other])
      simpa [hs, hne] using h.total side'
  exact {
    writes := ⟨⟨(h.held side.other).symm, by simpa using htotal.symm⟩, h.writes⟩
    onward := fun side' => by
      show handed side'.other (.start (.write side k (s.message side.other k)) :: s.trace) <+: taken side' s.trace
      rw [total side']
      exact List.prefix_append _ _
    held := fun o ho side' => by
      rw [only o ho]
      exact (h.held side').trans (List.append_nil _).symm
    total := fun o ho side' => by
      rw [only o ho]
      refine (total side').trans ?_
      rw [← hon]
      rfl }

/-! ### The handlers -/

/-- What is handed on while the message of a side is read. -/
def reading : Side → Side → Bool
  | .client, _ => false
  | .server, side => side = .client

theorem sendMessageToServer (h : Holding s k (reading .client)) : Transparent (s.sendMessageToServer k) :=
  h.startWrite .server _ rfl fun side' => by cases side' <;> rfl

theorem callback (h : Holding s k (reading side)) : Transparent (s.callback side k) := by
  cases side with
  | client =>
    rcases Socket.callback_client_cases s k with hr | ⟨-, -, hr⟩ <;> rw [hr]
    · exact h.startOp none rfl (neutral rfl) (fun _ => rfl) fun _ => rfl
    · exact h.sendMessageToServer
  | server => exact h.startWrite .client _ rfl fun side' => by cases side' <;> rfl

theorem readBody (h : Holding s k (reading side)) {header : Bytes} (hb : s.readBody side k header = .ok t) :
    Transparent t := by
  rcases Socket.readBody_cases hb with ⟨-, rfl⟩ | ⟨-, rfl⟩ | ⟨-, limit, q, rfl, hq⟩
  · exact h.transparent
  · exact h.callback
  · refine h.startOp q rfl (neutral rfl) (fun side' => ?_) fun side' => ?_
    · cases side <;> cases side' <;> rfl
    · rcases hq with rfl | ⟨-, rfl⟩ <;> simp [Outstanding.inFlight, Completion.data]

theorem headerHandler (h : Holding s k (reading side)) {ec : Option ErrorCode} {len : Nat}
    (hh : s.headerHandler side k ec len = .ok t) : Transparent t := by
  cases side with
  | client =>
    have hc : Holding s.cancelTimer k (reading .client) := h.frame rfl rfl rfl
    rcases Socket.clientHeaderHandler_cases hh with ⟨rfl, -⟩ | ⟨rfl, -, -⟩ | ⟨-, -, -, host, -, hb⟩
    · exact hc.transparent
    · exact hc.close
    · have hs : Holding { s.cancelTimer with currHost := host } k (reading .client) := hc.frame rfl rfl rfl
      exact (hs.log (a := .host k (s.message .client k) host) (neutral rfl)).readBody hb
  | server =>
    rcases Socket.serverHeaderHandler_cases hh with ⟨rfl, -⟩ | ⟨rfl, -, -⟩ | ⟨-, -, hb⟩
    · exact h.transparent
    · exact h.close
    · exact h.readBody hb

theorem getMessageFromClient (h : Holding s k fun _ => true) : Transparent s.getMessageFromClient := by
  have hk : s.messages.length = k + 1 := h.current.symm
  -- The new entry is empty, and nothing is taken for it yet.
  have empty : ∀ side, s.getMessageFromClient.message side (k + 1) = [] := fun side => by
    cases side <;> simp [Socket.message, Socket.getMessageFromClient, Side.text, List.getD_eq_getElem?_getD, hk]
  have none_taken : ∀ side, takenSince side (k + 1) s.getMessageFromClient.trace = [] := fun side => by
    simp [Socket.getMessageFromClient, takenSince, hk]
  have only : ∀ o ∈ s.getMessageFromClient.outstanding, o = ⟨.readHeader .client (k + 1), none⟩ := fun o ho => by
    simpa [Socket.getMessageFromClient, h.idle, hk] using ho
  exact {
    writes := ⟨trivial, h.writes⟩
    onward := h.transparent.onward
    held := fun o ho side => by
      rw [only o ho]
      show takenSince side (k + 1) _ = s.getMessageFromClient.message side (k + 1) ++ _
      rw [none_taken, empty]
      cases side <;> rfl
    total := fun o ho side => by
      rw [only o ho]
      show taken side s.trace = handed side.other s.trace ++ if false = true then [] else takenSince side (k + 1) _
      rw [none_taken, h.total side]
      rfl }

theorem writeHandler (h : Holding s k ((Op.write side k []).handedOn)) {ec : Option ErrorCode}
    (hh : s.writeHandler side k ec = .ok t) : Transparent t := by
  rcases Socket.writeHandler_cases hh with ⟨-, rfl⟩ | ⟨-, -, ⟨rfl, rfl⟩ | ⟨rfl, rfl⟩⟩
  · exact h.transparent
  · have hs : Holding { s with prevHost := s.currHost } k fun _ => true := h.frame rfl rfl rfl
    exact hs.getMessageFromClient
  · exact h.startOp none rfl (neutral rfl) (fun side' => by cases side' <;> rfl) fun side' => by
      cases side' <;> rfl

theorem connectToEndpoints (h : Holding s k (reading .client)) (entries : List Entry) :
    Transparent (s.connectToEndpoints k entries) := by
  unfold Socket.connectToEndpoints
  split
  · exact h.startOp _ rfl (neutral rfl) (fun _ => rfl) fun _ => rfl
  · have hs : Holding { s with serverSocket := .opened } k (reading .client) := h.frame rfl rfl rfl
    exact hs.startOp none rfl (neutral rfl) (fun _ => rfl) fun _ => rfl

theorem resolveHandler (h : Holding s k (reading .client)) (ec : Option ErrorCode) (entries : List Entry) :
    Transparent (s.resolveHandler k ec entries) := by
  rcases Socket.resolveHandler_cases s k ec entries with
    ⟨hr, -⟩ | hr | ⟨-, -, hr⟩ <;> rw [hr]
  · exact h.transparent
  · exact h.close
  · exact h.connectToEndpoints entries

theorem connectHandler (h : Holding s k (reading .client)) (ec : Option ErrorCode) :
    Transparent (s.connectHandler k ec) := by
  rcases Socket.connectHandler_cases s k ec with ⟨hr, -⟩ | hr | ⟨-, -, hr⟩ <;> rw [hr]
  · exact h.transparent
  · exact h.close
  · exact h.sendMessageToServer

end Holding

namespace Transparent
variable {s t : Socket} {o o' : Outstanding}

/-- When an operation is over and what it held is in `messages`, nothing is in flight. -/
theorem holding (h : Transparent s) (c : Chain s) (ho : s.outstanding = [o]) (hi : t.outstanding = [])
    (ht : t.trace = s.trace) (hl : t.messages.length = s.messages.length)
    (hm : ∀ side, t.message side o.op.msgId = s.message side o.op.msgId ++ o.inFlight side) :
    Holding t o.op.msgId o.op.handedOn := by
  have mem : o ∈ s.outstanding := ho ▸ List.mem_singleton_self o
  exact {
    idle := hi
    current := by rw [hl]; exact c.current o mem
    writes := ht ▸ h.writes
    held := fun side => by rw [ht, h.held o mem, hm]
    total := fun side => by rw [ht]; exact h.total o mem side }

/-- When an operation goes on, what it held is still held. -/
theorem progress (h : Transparent s) (ho : s.outstanding = [o]) (ho' : t.outstanding = [o']) (ht : t.trace = s.trace)
    (hk : o'.op.msgId = o.op.msgId) (hon : ∀ side, o'.op.handedOn side = o.op.handedOn side)
    (hm : ∀ side, t.message side o.op.msgId ++ o'.inFlight side = s.message side o.op.msgId ++ o.inFlight side) :
    Transparent t := by
  have mem : o ∈ s.outstanding := ho ▸ List.mem_singleton_self o
  have only : ∀ x ∈ t.outstanding, x = o' := fun x hx => by simpa [ho'] using hx
  exact {
    writes := ht ▸ h.writes
    onward := ht ▸ h.onward
    held := fun x hx side => by rw [only x hx, hk, ht, h.held o mem, hm]
    total := fun x hx side => by rw [only x hx, hk, ht, hon]; exact h.total o mem side }

theorem resume {op : Op} {q : Completion} (h : Transparent s) (c : Chain s) (ho : s.outstanding = [⟨op, some q⟩])
    (hr : { s with outstanding := [] }.resume op q = .ok t) : Transparent t := by
  have hk : op.msgId < s.messages.length := by
    have := c.current _ (ho ▸ List.mem_singleton_self _)
    exact this ▸ Nat.lt_succ_self _
  -- The strings of the message after a piece of it is appended.
  have appended : ∀ (side : Side) (data : Bytes), (∀ side', Outstanding.inFlight side' ⟨op, some q⟩ =
      if side = side' then data else []) → ∀ side', ({ s with outstanding := [] }.append side op.msgId data).message
        side' op.msgId = s.message side' op.msgId ++ Outstanding.inFlight side' ⟨op, some q⟩ := by
    intro side data hf side'
    rw [hf]
    by_cases hs : side = side'
    · subst hs
      rw [if_pos rfl]
      exact Socket.message_append (s := { s with outstanding := [] }) hk data
    · rw [if_neg hs, List.append_nil]
      exact Socket.message_append_of_ne (s := { s with outstanding := [] }) (fun he => hs he.symm) data
  have unmoved : (∀ side', Outstanding.inFlight side' ⟨op, some q⟩ = []) →
      Holding { s with outstanding := [] } op.msgId op.handedOn := fun hf =>
    h.holding c ho rfl rfl rfl fun side' => by rw [hf, List.append_nil]; rfl
  cases op with
  | readHeader side k =>
    have hon : (Op.readHeader side k).handedOn = Holding.reading side := by
      funext side'
      cases side <;> cases side' <;> rfl
    cases q with
    | success data endpoints =>
      have hm := appended side data fun _ => rfl
      simp only [Socket.resume] at hr
      split at hr
      · have hold := h.holding c ho (t := { s with outstanding := [] }.append side k data) rfl rfl
          (List.length_modify _ _ _) hm
        rw [hon] at hold
        exact (hold.finish _ none).headerHandler hr
      · rw [← Except.ok.inj hr]
        refine h.progress ho rfl rfl rfl (fun _ => rfl) fun side' => ?_
        have none : Outstanding.inFlight side' ⟨.readHeader side k, none⟩ = [] := by simp [Outstanding.inFlight]
        rw [← hm, none, List.append_nil]
        rfl
    | failure ec =>
      have hold := unmoved fun side' => by simp [Outstanding.inFlight, Completion.data]
      rw [hon] at hold
      exact (hold.finish _ (some ec)).headerHandler hr
  | readBody side k limit httpBody =>
    have hon : (Op.readBody side k limit httpBody).handedOn = Holding.reading side := by
      funext side'
      cases side <;> cases side' <;> rfl
    -- The handler appends all that was read into `http_body`.
    have shared : ∀ (httpBody' : Bytes) (op' : Op) (ec : Option ErrorCode),
        (∀ side', Outstanding.inFlight side' ⟨.readBody side k limit httpBody, some q⟩ =
          if side = side' then httpBody' else []) →
        ({ s with outstanding := [] }.finish op' ec).sharedHandler side k httpBody' ec = .ok t → Transparent t := by
      intro httpBody' op' ec hf hh
      have hold := h.holding c ho (t := { s with outstanding := [] }.append side k httpBody') rfl rfl
        (List.length_modify _ _ _) (appended side httpBody' hf)
      rw [hon] at hold
      have hold := hold.finish op' ec
      rcases Socket.sharedHandler_cases hh with ⟨-, rfl⟩ | ⟨-, rfl⟩
      · exact hold.callback
      · exact hold.transparent
    cases q with
    | success data endpoints =>
      simp only [Socket.resume] at hr
      split at hr
      · exact shared (httpBody ++ data) _ none (fun _ => rfl) hr
      · rw [← Except.ok.inj hr]
        refine h.progress ho rfl rfl rfl (fun side' => by cases side <;> cases side' <;> rfl) fun side' => ?_
        simp [Outstanding.inFlight, Completion.data, Socket.message]
    | failure ec =>
      exact shared httpBody _ (some ec) (fun side' => by simp [Outstanding.inFlight, Completion.data]) hr
  | resolve k host =>
    have hold : Holding _ k (Holding.reading .client) := unmoved fun _ => rfl
    cases q <;> rw [← Except.ok.inj hr]
    · exact (hold.finish _ none).resolveHandler none _
    · exact (hold.finish _ _).resolveHandler _ []
  | connect k entries =>
    have hold : Holding { s with outstanding := [] } k (Holding.reading .client) := unmoved fun _ => rfl
    have socket : ∀ socket, Holding { s with serverSocket := socket, outstanding := [] } k (Holding.reading .client) :=
      fun socket => hold.frame rfl rfl rfl
    cases q with
    | success data endpoints =>
      cases entries <;> rw [← Except.ok.inj hr]
      · exact (hold.finish _ none).connectHandler none
      · exact ((socket _).finish _ none).connectHandler none
    | failure ec =>
      rcases entries with _ | ⟨entry, _ | ⟨next, rest⟩⟩ <;> rw [← Except.ok.inj hr]
      · exact (hold.finish _ _).connectHandler _
      · exact (hold.finish _ _).connectHandler _
      · exact h.progress ho rfl rfl rfl (fun _ => rfl) fun _ => rfl
  | write side k rest =>
    have hold : Holding { s with outstanding := [] } k (Op.write side k rest).handedOn := unmoved fun _ => rfl
    have hon : ∀ rest', (Op.write side k rest').handedOn = (Op.write side k []).handedOn := fun _ => by
      funext side'
      cases side <;> cases side' <;> rfl
    rw [hon] at hold
    cases q with
    | success data endpoints =>
      simp only [Socket.resume] at hr
      split at hr
      · exact (hold.finish _ none).writeHandler hr
      · rw [← Except.ok.inj hr]
        exact h.progress ho rfl rfl rfl (fun side' => (congrFun (hon _) side').trans (congrFun (hon rest) side').symm)
          fun _ => rfl
    | failure ec => exact (hold.finish _ (some ec)).writeHandler hr

/-- A change of a session that moves no byte, and logs at most one action. -/
theorem frame (h : Transparent s) (newer : Option Action) {f : Outstanding → Outstanding}
    (hf : ∀ o, (f o).op = o.op ∧ ∀ side, (f o).inFlight side = o.inFlight side)
    (ho : t.outstanding = s.outstanding.map f) (hm : t.messages = s.messages)
    (ht : t.trace = newer.toList ++ s.trace) (hn : ∀ a ∈ newer, Neutral a) : Transparent t := by
  have logs : (∀ side, taken side t.trace = taken side s.trace) ∧
      (∀ side k, takenSince side k t.trace = takenSince side k s.trace) ∧
      (∀ side, handed side t.trace = handed side s.trace) ∧ Always WriteExact t.trace := by
    rw [ht]
    cases newer with
    | none => exact ⟨fun _ => rfl, fun _ _ => rfl, fun _ => rfl, h.writes⟩
    | some a =>
      have ha := hn a rfl
      exact ⟨fun side => ha.taken side _, fun side k => ha.since side k _, fun side => ha.handed side _,
        ha.exact _, h.writes⟩
  obtain ⟨htaken, hsince, hhanded, hwrites⟩ := logs
  refine ⟨hwrites, fun side => by rw [hhanded, htaken]; exact h.onward side, fun o ho' side => ?_,
    fun o ho' side => ?_⟩
  · rw [ho] at ho'
    obtain ⟨o, hmem, rfl⟩ := List.mem_map.mp ho'
    rw [(hf o).1, (hf o).2, hsince, Socket.message_congr hm]
    exact h.held o hmem side
  · rw [ho] at ho'
    obtain ⟨o, hmem, rfl⟩ := List.mem_map.mp ho'
    rw [(hf o).1, hsince, htaken, hhanded]
    exact h.total o hmem side

/-- A change of the timer, the clock and the connection of the client. -/
theorem quiet (h : Transparent s) (ho : t.outstanding = s.outstanding) (hm : t.messages = s.messages)
    (ht : t.trace = s.trace) : Transparent t :=
  h.frame none (f := id) (fun _ => ⟨rfl, fun _ => rfl⟩) (by rw [ho, List.map_id]) hm ht nofun

theorem log (h : Transparent s) {a : Action} (ha : Neutral a) : Transparent (s.log a) :=
  h.frame (some a) (f := id) (fun _ => ⟨rfl, fun _ => rfl⟩) (List.map_id _).symm rfl rfl
    fun _ hb => Option.some.inj hb ▸ ha

theorem closing_inFlight (side : Side) : (s.closing o).inFlight side = o.inFlight side := by
  have hop : (s.closing o).op = o.op := Socket.closing_op
  have hq := Socket.closing_completion s o
  obtain ⟨op, q⟩ := o
  generalize s.closing ⟨op, q⟩ = o' at hop hq
  obtain ⟨op', q'⟩ := o'
  obtain rfl : op' = op := hop
  rcases hq with (rfl : q' = q) | ⟨(rfl : q = none), (rfl : q' = _)⟩
  · rfl
  · cases op' <;> simp [Outstanding.inFlight, Completion.data]

theorem close (h : Transparent s) : Transparent s.close := by
  cases hs : s.stopped
  · refine h.frame (some .stop) (f := s.closing) (fun _ => ⟨Socket.closing_op, closing_inFlight⟩) ?_
      Socket.close_messages ?_ fun a ha => ?_
    · rw [Socket.close_of_not_stopped hs]
    · rw [Socket.close_of_not_stopped hs]
      rfl
    · rw [← Option.some.inj ha]
      exact neutral rfl
  · rw [Socket.close_of_stopped hs]
    exact h

theorem handleWait (h : Transparent s) (ec : Option ErrorCode) : Transparent (s.handleWait ec) := by
  rcases Socket.handleWait_cases s ec with hw | ⟨-, -, hw⟩ | ⟨-, -, hw⟩ <;> rw [hw]
  · exact h
  · exact (h.log (a := .timedOut s.now) (neutral rfl)).close
  · exact (h.log (a := .wait) (neutral rfl)).quiet rfl rfl rfl

/-- Bytes that a read takes off a socket are in flight. -/
theorem read {op : Op} {side : Side} {data : Bytes} {endpoints : List Endpoint} (h : Transparent s)
    (ho : s.outstanding = [⟨op, none⟩])
    (hf : ∀ side', Outstanding.inFlight side' ⟨op, some (.success data endpoints)⟩ =
      Outstanding.inFlight side' ⟨op, none⟩ ++ if side = side' then data else [])
    (hon : op.handedOn side = false) (hout : t.outstanding = [⟨op, some (.success data endpoints)⟩])
    (hm : t.messages = s.messages) (ht : t.trace = .taken side data :: s.trace) : Transparent t := by
  have mem : (⟨op, none⟩ : Outstanding) ∈ s.outstanding := ho ▸ List.mem_singleton_self _
  have only : ∀ x ∈ t.outstanding, x = ⟨op, some (.success data endpoints)⟩ := fun x hx => by simpa [hout] using hx
  have htaken : ∀ side', taken side' t.trace = taken side' s.trace ++ if side = side' then data else [] :=
    fun side' => by rw [ht, taken]; split <;> simp
  have hsince : ∀ side' k, takenSince side' k t.trace =
      takenSince side' k s.trace ++ if side = side' then data else [] :=
    fun side' k => by rw [ht, takenSince]; split <;> simp
  have hhanded : ∀ side', handed side' t.trace = handed side' s.trace := fun side' => by rw [ht]; rfl
  refine ⟨by rw [ht]; exact ⟨trivial, h.writes⟩, fun side' => ?_, fun x hx side' => ?_, fun x hx side' => ?_⟩
  · rw [hhanded, htaken]
    exact (h.onward side').trans (List.prefix_append _ _)
  · rw [only x hx, hsince, hf, ← List.append_assoc, h.held _ mem side', Socket.message_congr hm]
  · rw [only x hx, htaken, hhanded, h.total _ mem side', hsince]
    by_cases hs : side = side'
    · subst hs
      simp [hon]
    · simp [hs]

theorem io {op : Op} {q : Completion} (h : Transparent s) (ho : s.outstanding = [⟨op, none⟩]) :
    Transparent { s with outstanding := [⟨op, some q⟩], trace := op.shows q ++ s.trace } := by
  have step : ∀ newer : Option Action, (∀ side, Outstanding.inFlight side ⟨op, some q⟩ =
      Outstanding.inFlight side ⟨op, none⟩) → newer.toList = op.shows q → (∀ a ∈ newer, Neutral a) →
      Transparent { s with outstanding := [⟨op, some q⟩], trace := op.shows q ++ s.trace } := fun newer hf hs hn =>
    h.frame newer (f := fun o => if o = ⟨op, none⟩ then ⟨op, some q⟩ else o)
      (fun o => by
        split
        · rename_i he
          rw [he]
          exact ⟨rfl, hf⟩
        · exact ⟨rfl, fun _ => rfl⟩)
      (by rw [ho]; simp) rfl (by rw [hs]) hn
  cases q with
  | failure ec =>
    exact step none (fun side => by cases op <;> simp [Outstanding.inFlight, Completion.data])
      (by cases op <;> rfl) nofun
  | success data endpoints =>
    cases op with
    | readHeader side k =>
      exact h.read ho (fun side' => by simp [Outstanding.inFlight, Completion.data]) (by cases side <;> rfl) rfl rfl rfl
    | readBody side k limit httpBody =>
      refine h.read ho (fun side' => ?_) (by cases side <;> rfl) rfl rfl rfl
      by_cases hs : side = side' <;> simp [Outstanding.inFlight, Completion.data, hs]
    | resolve k host =>
      exact step (some (.resolved host _)) (fun _ => rfl) rfl fun a ha => Option.some.inj ha ▸ neutral rfl
    | connect k entries => exact step none (fun _ => rfl) rfl nofun
    | write side k rest =>
      exact step (some (.sent side k data)) (fun _ => rfl) rfl fun a ha => Option.some.inj ha ▸ neutral rfl

theorem step {e : Event} (h : Transparent s) (c : Chain s) (hs : session.Step s e t) : Transparent t := by
  cases c.move hs with
  | io ho => exact h.io ho
  | dispatch ho hr => exact h.resume c ho hr
  | close => exact h.close
  | @wait ec queue =>
    exact (h.quiet (t := { s with timer := { s.timer with queue := queue } }) rfl rfl rfl).handleWait ec
  | expire => exact h.quiet rfl rfl rfl
  | elapse d => exact h.quiet rfl rfl rfl
  | disconnect => exact h.quiet rfl rfl rfl

end Transparent

theorem start_transparent (now : Nat) : Transparent (Socket.new now).start where
  writes := ⟨trivial, trivial, trivial⟩
  onward _ := List.nil_prefix
  held o ho side := by
    rw [List.mem_singleton.mp ho]
    cases side <;> rfl
  total o ho side := by
    rw [List.mem_singleton.mp ho]
    cases side <;> rfl

theorem reachable_transparent {s : Socket} (h : session.Reachable s) : Transparent s :=
  h.invariant (fun _ ⟨now, hs⟩ => hs ▸ start_transparent now) fun _ _ _ hr ht hs => ht.step (reachable_chain hr) hs

/-- In every reachable state, each write that was started towards a side started with exactly the bytes taken
    off the other socket in its round, and with it all bytes taken until then were handed on; and at any time
    what was handed on is the first part of what was taken. -/
theorem byte_transparency {s : Socket} (h : session.Reachable s) :
    (∀ newer older side k msg, s.trace = newer ++ .start (.write side k msg) :: older →
      msg = takenSince side.other k older ∧
        handed side (.start (.write side k msg) :: older) = taken side.other older) ∧
    ∀ side, handed side s.trace <+: taken side.other s.trace := by
  have ht := reachable_transparent h
  refine ⟨fun newer older side k msg hl => ?_, fun side => ?_⟩
  · obtain ⟨hmsg, htotal⟩ := (hl ▸ ht.writes).split
    refine ⟨hmsg, ?_⟩
    rw [handed, if_pos rfl]
    exact htotal
  · have := ht.onward side.other
    rwa [Side.other_other] at this

theorem byte_transparency_sample : afterSample.messages.length = 2 ∧
    taken .client afterSample.trace = sampleRequest ∧ handed .server afterSample.trace <+: sampleRequest ∧
    handed .client afterSample.trace <+: sampleReply := by
  have hc : taken .client afterSample.trace = sampleRequest := by decide +kernel
  have hs : taken .server afterSample.trace = sampleReply := by decide +kernel
  obtain ⟨-, hon⟩ := byte_transparency afterSample_reachable
  exact ⟨by decide +kernel, hc, hc ▸ hon .server, hs ▸ hon .client⟩

end HttpProxy
