import HttpProxy.Theorems.Transparency

/-! What a session keeps. Nothing that it takes off a socket is dropped, and nothing is freed: the strings of all its
    rounds hold it, and the operation that is outstanding. -/

namespace HttpProxy
open Search

/-- All that a session has stored of a side, over all rounds. -/
def stored (side : Side) (s : Socket) : Bytes := s.messages.flatMap side.text

/-- What outstanding operations hold of a side outside `messages`. -/
def afloat (side : Side) (s : Socket) : Bytes := s.outstanding.flatMap (Outstanding.inFlight side)

/-- A handler takes nothing, keeps what is stored, and leaves nothing in flight. -/
structure Settles (s t : Socket) : Prop where
  log : ∀ side, taken side t.trace = taken side s.trace
  text : ∀ side, stored side t = stored side s
  rest : ∀ side, afloat side t = []

/-- What is appended to the newest entry is stored last. -/
theorem stored_append {s : Socket} {side : Side} {k : Nat} (hk : k + 1 = s.messages.length) (data : Bytes)
    (side' : Side) : stored side' (s.append side k data) = stored side' s ++ if side = side' then data else [] := by
  obtain ⟨older, m, hm⟩ : ∃ older m, s.messages = older ++ [m] := by
    rcases List.eq_nil_or_concat' s.messages with hnil | ⟨older, m, hm⟩
    · rw [hnil] at hk
      cases hk
    · exact ⟨older, m, hm⟩
  have last : k = older.length := by
    rw [hm, List.length_append] at hk
    exact Nat.succ_injective hk
  have changed : (s.append side k data).messages = older ++ [side.append data m] := by
    rw [Socket.append_messages, hm, last, List.modify_eq_take_cons_drop (by simp)]
    simp
  rw [stored, stored, changed, hm]
  simp only [List.flatMap_append, List.flatMap_singleton]
  cases side <;> cases side' <;> simp [Side.append, Side.text]

namespace Settles
variable {s s' t : Socket} {side : Side} {k n : Nat} {ec : Option ErrorCode}

theorem refl (idle : s.outstanding = []) : Settles s s :=
  ⟨fun _ => rfl, fun _ => rfl, fun side => by rw [afloat, idle]; rfl⟩

/-- A handler settles the same from a session with other hosts, sockets or timers, and other actions logged. -/
theorem frame (h : Settles s' t) (ht : ∀ side, taken side s'.trace = taken side s.trace)
    (hm : s'.messages = s.messages) : Settles s t :=
  ⟨fun side => (h.log side).trans (ht side), fun side => (h.text side).trans (by rw [stored, hm]; rfl), h.rest⟩

theorem startOp (idle : s.outstanding = []) (op : Op) {q : Option Completion}
    (hq : ∀ side, Outstanding.inFlight side ⟨op, q⟩ = []) : Settles s (s.startOp op q) :=
  ⟨fun _ => rfl, fun _ => rfl, fun side => by simp [afloat, idle, hq]⟩

theorem close (idle : s.outstanding = []) : Settles s s.close := by
  refine ⟨fun side => ?_, fun side => ?_, fun side => ?_⟩
  · cases running : s.stopped
    · rw [Socket.close_of_not_stopped running]
      rfl
    · rw [Socket.close_of_stopped running]
  · rw [stored, Socket.close_messages]
    rfl
  · rw [afloat, Socket.close_outstanding_nil idle]
    rfl

theorem callback (idle : s.outstanding = []) : Settles s (s.callback side k) := by
  cases side
  · rcases Socket.callback_client_cases s k with h | ⟨-, -, h⟩ <;> rw [h]
    · exact startOp idle _ fun _ => rfl
    · exact startOp idle _ fun _ => rfl
  · exact startOp idle _ fun _ => rfl

theorem readBody (idle : s.outstanding = []) {header : Bytes} (h : s.readBody side k header = .ok t) : Settles s t := by
  rcases Socket.readBody_cases h with ⟨-, rfl⟩ | ⟨-, rfl⟩ | ⟨-, limit, q, rfl, hq⟩
  · exact refl idle
  · exact callback idle
  · refine startOp idle _ fun side' => ?_
    rcases hq with rfl | ⟨-, rfl⟩ <;> simp [Outstanding.inFlight, Completion.data]

theorem headerHandler (idle : s.outstanding = []) (h : s.headerHandler side k ec n = .ok t) : Settles s t := by
  cases side
  · rcases Socket.clientHeaderHandler_cases h with ⟨rfl, -⟩ | ⟨rfl, -, -⟩ | ⟨-, -, -, host, -, hb⟩
    · exact (refl (s := s.cancelTimer) idle).frame (fun _ => rfl) rfl
    · exact (close (s := s.cancelTimer) idle).frame (fun _ => rfl) rfl
    · exact (readBody (s := Socket.log { s.cancelTimer with currHost := host } _) idle hb).frame (fun _ => rfl) rfl
  · rcases Socket.serverHeaderHandler_cases h with ⟨rfl, -⟩ | ⟨rfl, -, -⟩ | ⟨-, -, hb⟩
    · exact refl idle
    · exact close idle
    · exact readBody idle hb

theorem sharedHandler (idle : s.outstanding = []) {httpBody : Bytes} (h : s.sharedHandler side k httpBody ec = .ok t) :
    Settles (s.append side k httpBody) t := by
  rcases Socket.sharedHandler_cases h with ⟨-, rfl⟩ | ⟨-, rfl⟩
  · exact callback (s := s.append side k httpBody) idle
  · exact refl (s := s.append side k httpBody) idle

theorem writeHandler (idle : s.outstanding = []) (h : s.writeHandler side k ec = .ok t) : Settles s t := by
  rcases Socket.writeHandler_cases h with ⟨-, rfl⟩ | ⟨-, -, ⟨rfl, rfl⟩ | ⟨rfl, rfl⟩⟩
  · exact refl idle
  · -- The entry of the next round is empty.
    refine ⟨fun _ => rfl, fun side => ?_, fun side => ?_⟩
    · cases side <;> simp [stored, Socket.getMessageFromClient, Side.text]
    · simp [afloat, Socket.getMessageFromClient, idle, Outstanding.inFlight]
  · exact startOp idle _ fun side => by simp [Outstanding.inFlight]

theorem connectHandler (idle : s.outstanding = []) (k : Nat) (ec : Option ErrorCode) :
    Settles s (s.connectHandler k ec) := by
  rcases Socket.connectHandler_cases s k ec with ⟨h, -⟩ | h | ⟨-, -, h⟩ <;> rw [h]
  · exact refl idle
  · exact close idle
  · exact startOp idle _ fun _ => rfl

theorem resolveHandler (idle : s.outstanding = []) (entries : List Entry) :
    Settles s (s.resolveHandler k ec entries) := by
  rcases Socket.resolveHandler_cases s k ec entries with ⟨h, -⟩ | h | ⟨-, -, h⟩ <;> rw [h]
  · exact refl idle
  · exact close idle
  · unfold Socket.connectToEndpoints
    split
    · exact startOp idle _ fun _ => rfl
    · exact (startOp (s := { s with serverSocket := .opened }) idle _ fun _ => rfl).frame (fun _ => rfl) rfl

end Settles

/-- A completion takes nothing, and what it held is stored, or held on. -/
theorem Socket.resume_stored {s t : Socket} {op : Op} {c : Completion} (idle : s.outstanding = [])
    (hk : op.msgId + 1 = s.messages.length) (h : s.resume op c = .ok t) (side : Side) :
    taken side t.trace = taken side s.trace ∧
      stored side t ++ afloat side t = stored side s ++ Outstanding.inFlight side ⟨op, some c⟩ := by
  have settled : ∀ {s' : Socket}, Settles s' t → taken side s'.trace = taken side s.trace →
      stored side s' = stored side s ++ Outstanding.inFlight side ⟨op, some c⟩ →
      taken side t.trace = taken side s.trace ∧
        stored side t ++ afloat side t = stored side s ++ Outstanding.inFlight side ⟨op, some c⟩ :=
    fun settles ht hm => ⟨(settles.log side).trans ht, by rw [settles.text, settles.rest, List.append_nil, hm]⟩
  have unmoved : ∀ {s' : Socket}, Settles s' t → taken side s'.trace = taken side s.trace →
      stored side s' = stored side s → Outstanding.inFlight side ⟨op, some c⟩ = [] →
      taken side t.trace = taken side s.trace ∧
        stored side t ++ afloat side t = stored side s ++ Outstanding.inFlight side ⟨op, some c⟩ :=
    fun settles ht hm hf => settled settles ht (by rw [hm, hf, List.append_nil])
  -- An operation that goes on holds what it held.
  have held : ∀ {s' : Socket} (op' : Op), t = s'.again op' → s'.outstanding = [] → s'.trace = s.trace →
      stored side s' ++ Outstanding.inFlight side ⟨op', none⟩ =
        stored side s ++ Outstanding.inFlight side ⟨op, some c⟩ →
      taken side t.trace = taken side s.trace ∧
        stored side t ++ afloat side t = stored side s ++ Outstanding.inFlight side ⟨op, some c⟩ := by
    intro s' op' ht ho htr hf
    rw [ht, afloat, again_outstanding, ho, again_trace, htr]
    exact ⟨rfl, by simpa [stored] using hf⟩
  have failed : ∀ {side' : Side} {k : Nat} {ec : ErrorCode},
      Outstanding.inFlight side ⟨.readHeader side' k, some (.failure ec)⟩ = [] := by
    simp [Outstanding.inFlight, Completion.data]
  cases op with
  | readHeader side' k =>
    cases c with
    | success data endpoints =>
      have added : stored side (s.append side' k data) =
          stored side s ++ Outstanding.inFlight side ⟨.readHeader side' k, some (.success data endpoints)⟩ :=
        stored_append hk data side
      simp only [resume] at h
      split at h
      · exact settled (.headerHandler (s := (s.append side' k data).finish _ none) idle h) rfl added
      · exact @held (s.append side' k data) (.readHeader side' k) (Except.ok.inj h).symm idle rfl
          (by simpa [Outstanding.inFlight] using added)
    | failure ec => exact unmoved (.headerHandler (s := s.finish _ (some ec)) idle h) rfl rfl failed
  | readBody side' k limit httpBody =>
    cases c with
    | success data endpoints =>
      simp only [resume] at h
      split at h
      · exact settled (.sharedHandler (s := s.finish _ none) idle h) rfl (stored_append hk _ side)
      · exact held (.readBody side' k limit (httpBody ++ data)) (Except.ok.inj h).symm idle rfl
          (by simp [Outstanding.inFlight, Completion.data])
    | failure ec =>
      refine settled (.sharedHandler (s := s.finish _ (some ec)) idle h) rfl ?_
      have added : stored side (s.append side' k httpBody) = stored side s ++ if side' = side then httpBody else [] :=
        stored_append hk httpBody side
      refine Eq.trans added ?_
      simp [Outstanding.inFlight, Completion.data]
  | resolve k host =>
    cases c with
    | success data endpoints =>
      obtain rfl := Except.ok.inj h
      exact unmoved (.resolveHandler (s := s.finish _ none) idle _) rfl rfl rfl
    | failure ec =>
      obtain rfl := Except.ok.inj h
      exact unmoved (.resolveHandler (s := s.finish _ (some ec)) idle []) rfl rfl rfl
  | connect k entries =>
    cases c with
    | success data endpoints =>
      cases entries with
      | nil =>
        obtain rfl := Except.ok.inj h
        exact unmoved (.connectHandler (s := s.finish _ none) idle k none) rfl rfl rfl
      | cons entry rest =>
        obtain rfl := Except.ok.inj h
        let s' := { s with serverSocket := .connected entry }.finish (.connect k (entry :: rest)) none
        exact @unmoved s' (.connectHandler (s := s') idle k none) rfl rfl rfl
    | failure ec =>
      rcases entries with _ | ⟨entry, _ | ⟨next, rest⟩⟩
      · obtain rfl := Except.ok.inj h
        exact unmoved (.connectHandler (s := s.finish _ (some ec)) idle k (some ec)) rfl rfl rfl
      · obtain rfl := Except.ok.inj h
        exact unmoved (.connectHandler (s := s.finish _ (some ec)) idle k (some ec)) rfl rfl rfl
      · exact @held { s with serverSocket := .opened } (.connect k (next :: rest)) (Except.ok.inj h).symm idle rfl rfl
  | write side' k rest =>
    cases c with
    | success data endpoints =>
      simp only [resume] at h
      split at h
      · exact unmoved (.writeHandler (s := s.finish _ none) idle h) rfl rfl rfl
      · exact held (.write side' k (rest.drop data.length)) (Except.ok.inj h).symm idle rfl rfl
    | failure ec => exact unmoved (.writeHandler (s := s.finish _ (some ec)) idle h) rfl rfl rfl

/-! ### Runs -/

/-- What was taken is stored, or held by what is outstanding. -/
def Kept (s : Socket) : Prop := ∀ side, taken side s.trace = stored side s ++ afloat side s

namespace Kept
variable {s t : Socket}

theorem close (h : Kept s) : Kept s.close := by
  intro side
  cases running : s.stopped
  · have held : afloat side s.close = afloat side s := by
      rw [afloat, Socket.close_of_not_stopped running, List.flatMap_map]
      exact congrArg (s.outstanding.flatMap ·) (funext fun o => Transparent.closing_inFlight side)
    have log : taken side s.close.trace = taken side s.trace := by
      rw [Socket.close_of_not_stopped running]
      rfl
    rw [held, log, stored, Socket.close_messages]
    exact h side
  · rw [Socket.close_of_stopped running]
    exact h side

/-- What a low-level step takes is in flight. -/
theorem io {op : Op} {q : Completion} (h : Kept s) (ho : s.outstanding = [⟨op, none⟩]) :
    Kept { s with outstanding := [⟨op, some q⟩], trace := op.shows q ++ s.trace } := by
  intro side
  have before : taken side s.trace = stored side s ++ Outstanding.inFlight side ⟨op, none⟩ := by
    rw [h side, afloat, ho, List.flatMap_singleton]
  have grows : taken side (op.shows q ++ s.trace) = stored side s ++ Outstanding.inFlight side ⟨op, some q⟩ := by
    cases op with
    | readHeader side' k =>
      cases q with
      | success data endpoints =>
        by_cases hs : side' = side
        · simpa [Op.shows, taken, Outstanding.inFlight, Completion.data, hs] using before
        · simpa [Op.shows, taken, Outstanding.inFlight, Completion.data, hs] using before
      | failure ec => simpa [Op.shows, Outstanding.inFlight, Completion.data] using before
    | readBody side' k limit httpBody =>
      cases q with
      | success data endpoints =>
        by_cases hs : side' = side
        · have body : taken side s.trace = stored side s ++ httpBody := by
            simpa [Outstanding.inFlight, hs] using before
          simp [Op.shows, taken, Outstanding.inFlight, Completion.data, hs, body]
        · simpa [Op.shows, taken, Outstanding.inFlight, Completion.data, hs] using before
      | failure ec => simpa [Op.shows, Outstanding.inFlight, Completion.data] using before
    | resolve | connect | write => cases q <;> exact before
  rw [afloat, List.flatMap_singleton]
  exact grows

theorem step {e : Event} (h : Kept s) (c : Chain s) (hs : session.Step s e t) : Kept t := by
  cases c.move hs with
  | io ho => exact h.io ho
  | @dispatch op q t ho hr =>
    intro side
    have hk := c.current _ (ho ▸ List.mem_singleton_self _)
    obtain ⟨log, text⟩ := Socket.resume_stored (s := { s with outstanding := [] }) rfl hk hr side
    rw [log, text]
    refine (h side).trans ?_
    simp [afloat, ho, stored]
  | close => exact h.close
  | @wait ec queue =>
    have woken : Kept { s with timer := { s.timer with queue := queue } } := h
    rcases Socket.handleWait_cases { s with timer := { s.timer with queue := queue } } ec with
      hw | ⟨-, -, hw⟩ | ⟨-, -, hw⟩ <;> rw [hw]
    · exact woken
    · exact close (s := Socket.log { s with timer := { s.timer with queue := queue } } _) h
    · exact h
  | expire | elapse | disconnect => exact h

end Kept

/-- In every state of a session, whether it runs, is stopped or stranded, all that it ever took of a side is stored in
    the strings of its rounds, in order and each byte once, up to what an outstanding read holds; nothing is freed. The
    space that a waiting read prepares at the end of a string holds no such byte. -/
theorem all_kept {s : Socket} (h : session.Reachable s) (side : Side) :
    taken side s.trace = s.messages.flatMap side.text ++ s.outstanding.flatMap (Outstanding.inFlight side) := by
  have kept : Kept s := by
    refine h.invariant (fun s ⟨now, hs⟩ side => ?_) fun _ _ _ hr kept hs => kept.step (reachable_chain hr) hs
    rw [hs]
    cases side <;> rfl
  exact kept side

theorem all_kept_sample : afterSample.messages.flatMap Side.server.text = sampleReply := by
  have all : taken .server afterSample.trace = sampleReply := by decide +kernel
  have landed : afterSample.outstanding.flatMap (Outstanding.inFlight .server) = [] := by decide +kernel
  have kept := all_kept afterSample_reachable .server
  rw [all, landed, List.append_nil] at kept
  exact kept.symm

end HttpProxy
