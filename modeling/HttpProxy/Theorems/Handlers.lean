import HttpProxy.Step

/-! What each handler of a session can do. A handler that does not fault returns the state it was given, closes
    the session, or starts one operation; the lemmas here say which, and under which guards, so that the
    invariants need not unfold the handlers again. -/

namespace HttpProxy
open Search

theorem bind_eq_ok {ε α β : Type} {x : Except ε α} {f : α → Except ε β} {b : β} :
    (x >>= f) = .ok b ↔ ∃ a, x = .ok a ∧ f a = .ok b := by
  cases x with
  | error e => exact ⟨fun h => (nomatch h), fun ⟨_, h, _⟩ => (nomatch h)⟩
  | ok a => exact ⟨fun h => ⟨a, rfl, h⟩, fun ⟨_, h, hb⟩ => Except.ok.inj h ▸ hb⟩

namespace Socket
variable {s t : Socket} {side : Side} {k n : Nat} {ec : Option ErrorCode}

/-! ### Steps -/

theorem step_io {i : Nat} {c : Completion} {out : Except Fault Socket} (h : s.step (.io i c) = some out) :
    ∃ op, s.outstanding[i]? = some ⟨op, none⟩ ∧ op.allows c = true ∧
      out = .ok { s with outstanding := s.outstanding.set i ⟨op, some c⟩, trace := op.shows c ++ s.trace } := by
  simp only [step] at h
  split at h
  · rename_i op hop
    split at h
    · rename_i hc
      exact ⟨op, hop, hc, (Option.some.inj h).symm⟩
    · cases h
  · cases h

theorem step_dispatch {i : Nat} {out : Except Fault Socket} (h : s.step (.dispatch i) = some out) :
    ∃ op c, s.outstanding[i]? = some ⟨op, some c⟩ ∧
      out = { s with outstanding := s.outstanding.eraseIdx i }.resume op c := by
  simp only [step] at h
  split at h
  · rename_i op c hop
    exact ⟨op, c, hop, (Option.some.inj h).symm⟩
  · cases h

theorem step_expire {out : Except Fault Socket} (h : s.step .expire = some out) :
    0 < s.timer.pending ∧ s.timer.expiry ≤ s.now ∧ out = .ok { s with timer := s.timer.expire } := by
  simp only [step] at h
  split at h
  · rename_i hc
    exact ⟨hc.1, hc.2, (Option.some.inj h).symm⟩
  · cases h

theorem step_wait {out : Except Fault Socket} (h : s.step .wait = some out) :
    ∃ ec queue, s.timer.queue = ec :: queue ∧
      out = .ok ({ s with timer := { s.timer with queue := queue } }.handleWait ec) := by
  simp only [step] at h
  split at h
  · rename_i ec queue hq
    exact ⟨ec, queue, hq, (Option.some.inj h).symm⟩
  · cases h

/-! ### `close` -/

theorem close_of_stopped (h : s.stopped = true) : s.close = s := by
  simp [close, h]

/-- What `close` makes of an outstanding operation. -/
def closing (s : Socket) (o : Outstanding) : Outstanding :=
  (if s.serverSocket.isOpen then o.cancel .server else o).cancel .client

theorem close_of_not_stopped (h : s.stopped = false) : s.close =
    { s with stopped := true, trace := .stop :: s.trace, timer := s.timer.cancel,
             outstanding := s.outstanding.map s.closing } := by
  unfold close closing
  cases hs : s.serverSocket.isOpen <;> simp [h, hs, cancel, cancelTimer, Function.comp_def]

@[simp] theorem close_stopped : s.close.stopped = true := by
  cases h : s.stopped
  · rw [close_of_not_stopped h]
  · rw [close_of_stopped h, h]

@[simp] theorem close_messages : s.close.messages = s.messages := by
  cases h : s.stopped
  · rw [close_of_not_stopped h]
  · rw [close_of_stopped h]

@[simp] theorem close_prevHost : s.close.prevHost = s.prevHost := by
  cases h : s.stopped
  · rw [close_of_not_stopped h]
  · rw [close_of_stopped h]

@[simp] theorem close_currHost : s.close.currHost = s.currHost := by
  cases h : s.stopped
  · rw [close_of_not_stopped h]
  · rw [close_of_stopped h]

@[simp] theorem close_serverSocket : s.close.serverSocket = s.serverSocket := by
  cases h : s.stopped
  · rw [close_of_not_stopped h]
  · rw [close_of_stopped h]

@[simp] theorem close_now : s.close.now = s.now := by
  cases h : s.stopped
  · rw [close_of_not_stopped h]
  · rw [close_of_stopped h]

theorem close_outstanding_nil (h : s.outstanding = []) : s.close.outstanding = [] := by
  cases hs : s.stopped
  · rw [close_of_not_stopped hs, h]
    rfl
  · rw [close_of_stopped hs, h]

theorem cancel_op {o : Outstanding} : (o.cancel side).op = o.op := by
  unfold Outstanding.cancel
  split <;> rfl

@[simp] theorem closing_op {o : Outstanding} : (s.closing o).op = o.op := by
  unfold closing
  rw [cancel_op]
  split
  · exact cancel_op
  · rfl

theorem cancel_completion (side : Side) (o : Outstanding) : (o.cancel side).completion = o.completion ∨
    o.completion = none ∧ (o.cancel side).completion = some (.failure .operationAborted) := by
  unfold Outstanding.cancel
  split
  · rename_i h
    exact Or.inr ⟨h.2, rfl⟩
  · exact Or.inl rfl

/-- A queued completion stays, a waiting step may be aborted. -/
theorem closing_completion (s : Socket) (o : Outstanding) : (s.closing o).completion = o.completion ∨
    o.completion = none ∧ (s.closing o).completion = some (.failure .operationAborted) := by
  unfold closing
  split
  · rcases cancel_completion .server o with h | ⟨h, h'⟩
    · rcases cancel_completion .client (o.cancel .server) with h₂ | ⟨h₂, h₂'⟩
      · exact Or.inl (h₂.trans h)
      · exact Or.inr ⟨h ▸ h₂, h₂'⟩
    · rcases cancel_completion .client (o.cancel .server) with h₂ | ⟨h₂, h₂'⟩
      · exact Or.inr ⟨h, h₂.trans h'⟩
      · exact Or.inr ⟨h, h₂'⟩
  · exact cancel_completion .client o

theorem closing_eq {op : Op} {q : Option Completion} :
    s.closing ⟨op, q⟩ = ⟨op, (s.closing ⟨op, q⟩).completion⟩ := by
  have hop : (s.closing ⟨op, q⟩).op = op := closing_op
  generalize s.closing ⟨op, q⟩ = o at hop ⊢
  cases o
  cases hop
  rfl

/-! ### The handlers -/

theorem message_append (hk : k < s.messages.length) (data : Bytes) :
    (s.append side k data).message side k = s.message side k ++ data := by
  cases side <;> simp [message, append, Side.text, Side.append, List.getD_eq_getElem?_getD, hk]

theorem message_append_of_ne {side' : Side} (h : side' ≠ side) (data : Bytes) :
    (s.append side k data).message side' k = s.message side' k := by
  by_cases hk : k < s.messages.length
  · cases side <;> cases side' <;>
      first | exact absurd rfl h
            | simp [message, append, Side.text, Side.append, List.getD_eq_getElem?_getD, hk]
  · simp [message, append, List.getD_eq_getElem?_getD, hk]

theorem message_congr (h : t.messages = s.messages) : t.message side k = s.message side k := by
  rw [message, h, message]

theorem readBody_cases {header : Bytes} (h : s.readBody side k header = .ok t) :
    (s.stopped = true ∧ t = s) ∨ (s.stopped = false ∧ t = s.callback side k) ∨
      (s.stopped = false ∧ ∃ limit q, t = s.startOp (.readBody side k limit []) q ∧
        (q = none ∨ limit = some 0 ∧ q = some (.success [] []))) := by
  unfold readBody at h
  cases hs : s.stopped
  · simp only [hs, Bool.false_eq_true, ↓reduceIte] at h
    right
    split at h
    · exact Or.inl ⟨rfl, (Except.ok.inj h).symm⟩
    · obtain ⟨_, -, h⟩ := bind_eq_ok.mp h
      obtain ⟨_, -, h⟩ := bind_eq_ok.mp h
      refine Or.inr ⟨rfl, _, _, (Except.ok.inj h).symm, ?_⟩
      split
      · rename_i h0
        exact Or.inr ⟨congrArg some h0, rfl⟩
      · exact Or.inl rfl
    · split at h
      · exact Or.inl ⟨rfl, (Except.ok.inj h).symm⟩
      · exact Or.inr ⟨rfl, none, none, (Except.ok.inj h).symm, Or.inl rfl⟩
  · simp only [hs, ↓reduceIte] at h
    exact Or.inl ⟨rfl, (Except.ok.inj h).symm⟩

/-- The handler of a request header stops at the flag, at an abort or at a version above 1.1, closes the session
    at the end of the stream, or goes on to the body with the host it found. -/
theorem clientHeaderHandler_cases (h : s.clientHeaderHandler k ec n = .ok t) :
    (t = s.cancelTimer ∧ (s.stopped = true ∨ ec = some .operationAborted ∨
      ec = none ∧ ∃ v, stod (httpVersion (s.message .client k)) = .ok v ∧ v.gt onePointOne = true)) ∨
    (t = s.cancelTimer.close ∧ s.stopped = false ∧ ec = some .eof) ∨
    (s.stopped = false ∧ ec = none ∧
      (∃ v, stod (httpVersion (s.message .client k)) = .ok v ∧ v.gt onePointOne = false) ∧
      ∃ host, parseField (s.message .client k) (ascii "host") = .ok host ∧
        ({ s.cancelTimer with currHost := host }.log (.host k (s.message .client k) host)).readBody .client k
          ((s.message .client k).take n) = .ok t) := by
  unfold clientHeaderHandler at h
  dsimp only at h
  cases hs : s.stopped
  · rw [if_neg (by simp [hs])] at h
    cases ec with
    | some ec =>
      dsimp only at h
      split at h
      · rename_i hec
        exact Or.inl ⟨(Except.ok.inj h).symm, Or.inr (Or.inl (congrArg some hec))⟩
      · split at h
        · rename_i hec
          exact Or.inr (Or.inl ⟨(Except.ok.inj h).symm, rfl, congrArg some hec.1⟩)
        · cases h
    | none =>
      obtain ⟨v, hv, h⟩ := bind_eq_ok.mp h
      split at h
      · rename_i hgt
        exact Or.inl ⟨(Except.ok.inj h).symm, Or.inr (Or.inr ⟨rfl, v, hv, hgt⟩)⟩
      · rename_i hle
        obtain ⟨_, -, h⟩ := bind_eq_ok.mp h
        obtain ⟨host, hhost, h⟩ := bind_eq_ok.mp h
        exact Or.inr (Or.inr ⟨rfl, rfl, ⟨v, hv, Bool.eq_false_iff.mpr hle⟩, host, hhost, h⟩)
  · rw [if_pos (by simp [hs])] at h
    exact Or.inl ⟨(Except.ok.inj h).symm, Or.inl rfl⟩

/-- The handler of a reply header, likewise; at the end of the stream it returns. -/
theorem serverHeaderHandler_cases (h : s.serverHeaderHandler k ec n = .ok t) :
    (t = s ∧ (s.stopped = true ∨ ec = some .operationAborted ∨ ec = some .eof)) ∨
    (t = s.close ∧ s.stopped = false ∧ ec = some .connectionReset) ∨
    (s.stopped = false ∧ ec = none ∧
      s.readBody .server k ((s.message .server k).take n) = .ok t) := by
  unfold serverHeaderHandler at h
  cases hs : s.stopped
  · simp only [hs, Bool.false_eq_true, ↓reduceIte] at h
    cases ec with
    | some ec =>
      simp only at h
      split at h
      · rename_i hec
        exact Or.inl ⟨(Except.ok.inj h).symm, Or.inr (Or.inl (congrArg some hec))⟩
      · split at h
        · rename_i hec
          exact Or.inl ⟨(Except.ok.inj h).symm, Or.inr (Or.inr (congrArg some hec.1))⟩
        · split at h
          · rename_i hec
            exact Or.inr (Or.inl ⟨(Except.ok.inj h).symm, rfl, congrArg some hec⟩)
          · cases h
    | none =>
      obtain ⟨_, -, h⟩ := bind_eq_ok.mp h
      exact Or.inr (Or.inr ⟨rfl, rfl, h⟩)
  · simp only [hs, ↓reduceIte] at h
    exact Or.inl ⟨(Except.ok.inj h).symm, Or.inl rfl⟩

theorem sharedHandler_cases {httpBody : Bytes} (h : s.sharedHandler side k httpBody ec = .ok t) :
    (ec = none ∧ t = (s.append side k httpBody).callback side k) ∨
      ((ec = some .eof ∨ ec = some .operationAborted) ∧ t = s.append side k httpBody) := by
  unfold sharedHandler at h
  split at h
  · exact Or.inl ⟨rfl, (Except.ok.inj h).symm⟩
  · exact Or.inr ⟨Or.inl rfl, (Except.ok.inj h).symm⟩
  · exact Or.inr ⟨Or.inr rfl, (Except.ok.inj h).symm⟩
  · cases h

/-- The handler of a write only looks at the flag and the error code: it returns the state, or goes on to the read
    of the reply or of the next request. -/
theorem writeHandler_cases (h : s.writeHandler side k ec = .ok t) :
    (s.stopped = true ∧ t = s) ∨ (s.stopped = false ∧ ec = none ∧
      ((side = .client ∧ t = { s with prevHost := s.currHost }.getMessageFromClient) ∨
        (side = .server ∧ t = s.getMessageFromServer k))) := by
  cases side
  · simp only [writeHandler, clientWriteHandler] at h
    cases hs : s.stopped
    · cases ec <;> simp only [hs, Bool.false_eq_true, ↓reduceIte, reduceCtorEq] at h
      exact Or.inr ⟨rfl, rfl, Or.inl ⟨rfl, (Except.ok.inj h).symm⟩⟩
    · simp only [hs, ↓reduceIte] at h
      exact Or.inl ⟨rfl, (Except.ok.inj h).symm⟩
  · simp only [writeHandler, serverWriteHandler] at h
    cases hs : s.stopped
    · cases ec <;> simp only [hs, Bool.false_eq_true, ↓reduceIte, reduceCtorEq] at h
      exact Or.inr ⟨rfl, rfl, Or.inr ⟨rfl, (Except.ok.inj h).symm⟩⟩
    · simp only [hs, ↓reduceIte] at h
      exact Or.inl ⟨rfl, (Except.ok.inj h).symm⟩

theorem resolveServer_cases (s : Socket) (k : Nat) : s.resolveServer k = s.startOp (.resolve k s.currHost) none ∨
    (s.serverSocket.isOpen = true ∧ s.prevHost = s.currHost ∧ s.resolveServer k = s.sendMessageToServer k) := by
  unfold resolveServer
  split
  · rename_i h
    exact Or.inr ⟨h.1, h.2, rfl⟩
  · exact Or.inl rfl

/-- The callback for a request starts a resolution, or takes the shortcut over an open connection. -/
theorem callback_client_cases (s : Socket) (k : Nat) :
    s.callback .client k = s.startOp (.resolve k s.currHost) none ∨
      (s.serverSocket.isOpen = true ∧ s.prevHost = s.currHost ∧ s.callback .client k = s.sendMessageToServer k) :=
  resolveServer_cases s k

theorem resolveHandler_cases (s : Socket) (k : Nat) (ec : Option ErrorCode) (entries : List Entry) :
    (s.resolveHandler k ec entries = s ∧ s.stopped = true) ∨ s.resolveHandler k ec entries = s.close ∨
      (s.stopped = false ∧ ec = none ∧ s.resolveHandler k ec entries = s.connectToEndpoints k entries) := by
  unfold resolveHandler
  cases hs : s.stopped
  · cases ec
    · exact Or.inr (Or.inr ⟨rfl, rfl, rfl⟩)
    · exact Or.inr (Or.inl rfl)
  · exact Or.inl ⟨rfl, rfl⟩

theorem connectHandler_cases (s : Socket) (k : Nat) (ec : Option ErrorCode) :
    (s.connectHandler k ec = s ∧ s.stopped = true) ∨ s.connectHandler k ec = s.close ∨
      (s.stopped = false ∧ ec = none ∧ s.connectHandler k ec = s.sendMessageToServer k) := by
  unfold connectHandler
  cases hs : s.stopped
  · cases ec
    · exact Or.inr (Or.inr ⟨rfl, rfl, rfl⟩)
    · exact Or.inr (Or.inl rfl)
  · exact Or.inl ⟨rfl, rfl⟩

/-! ### The operation started

A handler of a single chain starts with no operation outstanding, so what it starts is the only one. -/

theorem mem_startOp {op : Op} {q : Option Completion} {o : Outstanding} (hi : s.outstanding = [])
    (ho : o ∈ (s.startOp op q).outstanding) : o = ⟨op, q⟩ := by
  rw [startOp_outstanding, hi] at ho
  exact List.mem_singleton.mp ho

theorem mem_again {op : Op} {o : Outstanding} (hi : s.outstanding = []) (ho : o ∈ (s.again op).outstanding) :
    o = ⟨op, none⟩ := by
  rw [again_outstanding, hi] at ho
  exact List.mem_singleton.mp ho

/-! ### `messages`

No handler but that of the write to the client adds an entry. -/

@[simp] theorem callback_messages : (s.callback side k).messages = s.messages := by
  cases side
  · rcases callback_client_cases s k with h | ⟨-, -, h⟩ <;> rw [h] <;> rfl
  · rfl

@[simp] theorem connectToEndpoints_messages {entries : List Entry} :
    (s.connectToEndpoints k entries).messages = s.messages := by
  unfold connectToEndpoints
  split <;> rfl

@[simp] theorem resolveHandler_messages {entries : List Entry} :
    (s.resolveHandler k ec entries).messages = s.messages := by
  rcases resolveHandler_cases s k ec entries with ⟨h, -⟩ | h | ⟨-, -, h⟩ <;> simp [h]

@[simp] theorem connectHandler_messages : (s.connectHandler k ec).messages = s.messages := by
  rcases connectHandler_cases s k ec with ⟨h, -⟩ | h | ⟨-, -, h⟩ <;>
    simp [h, sendMessageToServer]

theorem readBody_messages {header : Bytes} (h : s.readBody side k header = .ok t) : t.messages = s.messages := by
  rcases readBody_cases h with ⟨-, rfl⟩ | ⟨-, rfl⟩ | ⟨-, limit, q, rfl, -⟩ <;> simp

theorem headerHandler_messages (h : s.headerHandler side k ec n = .ok t) : t.messages = s.messages := by
  cases side
  · rcases clientHeaderHandler_cases h with ⟨rfl, -⟩ | ⟨rfl, -, -⟩ | ⟨-, -, -, host, -, hb⟩
    · rfl
    · exact close_messages
    · exact (readBody_messages (s := log _ _) hb).trans rfl
  · rcases serverHeaderHandler_cases h with ⟨rfl, -⟩ | ⟨rfl, -, -⟩ | ⟨-, -, hb⟩
    · rfl
    · exact close_messages
    · exact readBody_messages hb

theorem sharedHandler_messages {httpBody : Bytes} (h : s.sharedHandler side k httpBody ec = .ok t) :
    t.messages = (s.append side k httpBody).messages := by
  rcases sharedHandler_cases h with ⟨-, rfl⟩ | ⟨-, rfl⟩
  · exact callback_messages
  · rfl

/-- The handler of the timer does nothing, closes the session, or waits again after an abort. -/
theorem handleWait_cases (s : Socket) (ec : Option ErrorCode) : s.handleWait ec = s ∨
    (s.stopped = false ∧ ec = none ∧ s.handleWait ec = (s.log (.timedOut s.now)).close) ∨
    (s.stopped = false ∧ ec = some .operationAborted ∧ s.handleWait ec = s.asyncWait) := by
  unfold handleWait
  cases hs : s.stopped
  · simp only [Bool.false_eq_true, ↓reduceIte]
    split
    · split
      · exact Or.inr (Or.inl ⟨trivial, rfl, rfl⟩)
      · exact Or.inl rfl
    · exact Or.inr (Or.inr ⟨trivial, rfl, rfl⟩)
    · exact Or.inl rfl
  · exact Or.inl rfl

@[simp] theorem handleWait_messages : (s.handleWait ec).messages = s.messages := by
  rcases handleWait_cases s ec with h | ⟨-, -, h⟩ | ⟨-, -, h⟩ <;> simp [h]

@[simp] theorem handleWait_now : (s.handleWait ec).now = s.now := by
  rcases handleWait_cases s ec with h | ⟨-, -, h⟩ | ⟨-, -, h⟩ <;> simp [h]

@[simp] theorem handleWait_serverSocket : (s.handleWait ec).serverSocket = s.serverSocket := by
  rcases handleWait_cases s ec with h | ⟨-, -, h⟩ | ⟨-, -, h⟩ <;> simp [h]

/-- A completion adds no entry to `messages`, except that of a write to the client, which starts the read of
    the next request. -/
theorem resume_messages {op : Op} {c : Completion} (h : s.resume op c = .ok t) :
    t.messages.length = s.messages.length ∨
      (∃ k rest, op = .write .client k rest) ∧
        t.outstanding = s.outstanding ++ [⟨.readHeader .client s.messages.length, none⟩] := by
  cases op with
  | readHeader side k =>
    left
    cases c with
    | success data endpoints =>
      simp only [resume] at h
      split at h
      · rw [headerHandler_messages h]
        exact List.length_modify _ _ _
      · rw [← Except.ok.inj h]
        exact List.length_modify _ _ _
    | failure ec => rw [headerHandler_messages h]; rfl
  | readBody side k limit httpBody =>
    left
    cases c with
    | success data endpoints =>
      simp only [resume] at h
      split at h
      · rw [sharedHandler_messages h]
        exact List.length_modify _ _ _
      · rw [← Except.ok.inj h]
        rfl
    | failure ec =>
      rw [sharedHandler_messages h]
      exact List.length_modify _ _ _
  | resolve k host => left; cases c <;> rw [← Except.ok.inj h] <;> simp
  | connect k entries =>
    left
    cases c <;> rcases entries with _ | ⟨entry, _ | ⟨next, rest⟩⟩ <;> rw [← Except.ok.inj h] <;> simp
  | write side k rest =>
    have handler : ∀ (s' : Socket) {ec : Option ErrorCode}, s'.messages = s.messages →
        s'.outstanding = s.outstanding → s'.writeHandler side k ec = .ok t →
        t.messages.length = s.messages.length ∨ (∃ k' rest', Op.write side k rest = .write .client k' rest') ∧
          t.outstanding = s.outstanding ++ [⟨.readHeader .client s.messages.length, none⟩] := by
      intro s' ec hm ho hw
      rcases writeHandler_cases hw with ⟨-, rfl⟩ | ⟨-, -, ⟨rfl, rfl⟩ | ⟨rfl, rfl⟩⟩
      · exact Or.inl (congrArg List.length hm)
      · exact Or.inr ⟨⟨k, rest, rfl⟩, by simp [getMessageFromClient, hm, ho]⟩
      · exact Or.inl (congrArg List.length hm)
    cases c with
    | success data endpoints =>
      simp only [resume] at h
      split at h
      · exact handler (s.finish _ none) rfl rfl h
      · rw [← Except.ok.inj h]
        exact Or.inl rfl
    | failure ec => exact handler (s.finish _ (some ec)) rfl rfl h

/-! ### The connection of the client

No handler changes it. -/

@[simp] theorem close_clientConnected : s.close.clientConnected = s.clientConnected := by
  cases h : s.stopped
  · rw [close_of_not_stopped h]
  · rw [close_of_stopped h]

@[simp] theorem callback_clientConnected : (s.callback side k).clientConnected = s.clientConnected := by
  cases side
  · rcases callback_client_cases s k with h | ⟨-, -, h⟩ <;> rw [h] <;> rfl
  · rfl

@[simp] theorem resolveHandler_clientConnected {entries : List Entry} :
    (s.resolveHandler k ec entries).clientConnected = s.clientConnected := by
  rcases resolveHandler_cases s k ec entries with ⟨h, -⟩ | h | ⟨-, -, h⟩ <;> rw [h]
  · exact close_clientConnected
  · unfold connectToEndpoints
    split <;> rfl

@[simp] theorem connectHandler_clientConnected :
    (s.connectHandler k ec).clientConnected = s.clientConnected := by
  rcases connectHandler_cases s k ec with ⟨h, -⟩ | h | ⟨-, -, h⟩ <;> rw [h]
  · exact close_clientConnected
  · rfl

@[simp] theorem handleWait_clientConnected : (s.handleWait ec).clientConnected = s.clientConnected := by
  rcases handleWait_cases s ec with h | ⟨-, -, h⟩ | ⟨-, -, h⟩ <;> rw [h]
  · exact close_clientConnected
  · rfl

theorem readBody_clientConnected {header : Bytes} (h : s.readBody side k header = .ok t) :
    t.clientConnected = s.clientConnected := by
  rcases readBody_cases h with ⟨-, rfl⟩ | ⟨-, rfl⟩ | ⟨-, limit, q, rfl, -⟩
  · rfl
  · exact callback_clientConnected
  · rfl

theorem headerHandler_clientConnected (h : s.headerHandler side k ec n = .ok t) :
    t.clientConnected = s.clientConnected := by
  cases side
  · rcases clientHeaderHandler_cases h with ⟨rfl, -⟩ | ⟨rfl, -, -⟩ | ⟨-, -, -, host, -, hb⟩
    · rfl
    · exact close_clientConnected
    · exact (readBody_clientConnected (s := log _ _) hb).trans rfl
  · rcases serverHeaderHandler_cases h with ⟨rfl, -⟩ | ⟨rfl, -, -⟩ | ⟨-, -, hb⟩
    · rfl
    · exact close_clientConnected
    · exact readBody_clientConnected hb

theorem sharedHandler_clientConnected {httpBody : Bytes} (h : s.sharedHandler side k httpBody ec = .ok t) :
    t.clientConnected = s.clientConnected := by
  rcases sharedHandler_cases h with ⟨-, rfl⟩ | ⟨-, rfl⟩
  · exact callback_clientConnected
  · rfl

theorem writeHandler_clientConnected (h : s.writeHandler side k ec = .ok t) :
    t.clientConnected = s.clientConnected := by
  rcases writeHandler_cases h with ⟨-, rfl⟩ | ⟨-, -, ⟨-, rfl⟩ | ⟨-, rfl⟩⟩ <;> rfl

theorem resume_clientConnected {op : Op} {c : Completion} (h : s.resume op c = .ok t) :
    t.clientConnected = s.clientConnected := by
  cases op with
  | readHeader side k =>
    cases c with
    | success data endpoints =>
      simp only [resume] at h
      split at h
      · exact (headerHandler_clientConnected h).trans rfl
      · rw [← Except.ok.inj h]
        rfl
    | failure ec => exact (headerHandler_clientConnected h).trans rfl
  | readBody side k limit httpBody =>
    cases c with
    | success data endpoints =>
      simp only [resume] at h
      split at h
      · exact (sharedHandler_clientConnected h).trans rfl
      · rw [← Except.ok.inj h]
        rfl
    | failure ec => exact (sharedHandler_clientConnected h).trans rfl
  | resolve k host =>
    cases c <;> rw [← Except.ok.inj h] <;> exact resolveHandler_clientConnected.trans rfl
  | connect k entries =>
    cases c <;> rcases entries with _ | ⟨entry, _ | ⟨next, rest⟩⟩ <;> rw [← Except.ok.inj h] <;>
      first | exact connectHandler_clientConnected.trans rfl | rfl
  | write side k rest =>
    cases c with
    | success data endpoints =>
      simp only [resume] at h
      split at h
      · exact (writeHandler_clientConnected h).trans rfl
      · rw [← Except.ok.inj h]
        rfl
    | failure ec => exact (writeHandler_clientConnected h).trans rfl

end Socket

/-! ### One operation -/

/-- What a step of a session with at most one outstanding operation can be. -/
inductive Move (s : Socket) : Event → Socket → Prop
  | io {op : Op} {c : Completion} : s.outstanding = [⟨op, none⟩] → op.allows c = true →
      Move s (.io 0 c) { s with outstanding := [⟨op, some c⟩], trace := op.shows c ++ s.trace }
  | dispatch {op : Op} {c : Completion} {t : Socket} : s.outstanding = [⟨op, some c⟩] →
      { s with outstanding := [] }.resume op c = .ok t → Move s (.dispatch 0) t
  | close : Move s .close s.close
  | wait {ec : Option ErrorCode} {queue : List (Option ErrorCode)} : s.timer.queue = ec :: queue →
      Move s .wait ({ s with timer := { s.timer with queue := queue } }.handleWait ec)
  | expire : 0 < s.timer.pending → s.timer.expiry ≤ s.now → Move s .expire { s with timer := s.timer.expire }
  | elapse (d : Nat) : Move s (.elapse d) { s with now := s.now + d }
  | disconnect : Move s .disconnect { s with clientConnected := false }

namespace Move
variable {s t : Socket}

theorem eq_singleton (h : s.outstanding.length ≤ 1) {i : Nat} {o : Outstanding} (hi : s.outstanding[i]? = some o) :
    s.outstanding = [o] ∧ i = 0 := by
  obtain ⟨hlt, ho⟩ := List.getElem?_eq_some_iff.mp hi
  have hone : s.outstanding.length = 1 := by omega
  obtain ⟨a, ha⟩ := List.length_eq_one_iff.mp hone
  have h0 : i = 0 := by omega
  subst h0
  simp only [ha, List.getElem_cons_zero] at ho
  exact ⟨ho ▸ ha, rfl⟩

theorem of_step {e : Event} (h : s.outstanding.length ≤ 1) (hs : session.Step s e t) : Move s e t := by
  cases e with
  | io i c =>
    obtain ⟨op, hi, hc, ht⟩ := Socket.step_io hs
    obtain ⟨ho, rfl⟩ := eq_singleton h hi
    rw [Except.ok.inj ht, ho]
    exact .io ho hc
  | dispatch i =>
    obtain ⟨op, c, hi, ht⟩ := Socket.step_dispatch hs
    obtain ⟨ho, rfl⟩ := eq_singleton h hi
    rw [ho] at ht
    exact .dispatch ho ht.symm
  | expire =>
    obtain ⟨hp, hx, ht⟩ := Socket.step_expire hs
    rw [Except.ok.inj ht]
    exact .expire hp hx
  | wait =>
    obtain ⟨ec, queue, hq, ht⟩ := Socket.step_wait hs
    rw [Except.ok.inj ht]
    exact .wait hq
  | close => exact Except.ok.inj (Option.some.inj hs) ▸ .close
  | elapse d => exact Except.ok.inj (Option.some.inj hs) ▸ .elapse d
  | disconnect => exact Except.ok.inj (Option.some.inj hs) ▸ .disconnect

end Move

end HttpProxy
