import HttpProxy.Theorems.Chain

/-! What a completion comes to. Its operation waits again, or its final handler is called, which returns, closes
    the session, or starts one operation. -/

namespace HttpProxy
open Search

/-- The final handler that a completion calls, with the error code that it is given; none where the operation
    goes on with its next step. -/
def Op.final (s : Socket) : Op → Completion → Option (Op × Option ErrorCode)
  | op@(.readHeader side k), .success data _ =>
    if (find? headerEnd ((s.append side k data).message side k)).isSome then some (op, none) else none
  | .readBody side k limit httpBody, .success data _ =>
    if Socket.bodyDone limit (httpBody ++ data) then some (.readBody side k limit (httpBody ++ data), none) else none
  | .connect _ (_ :: _ :: _), .failure _ => none
  | .write side k rest, .success data _ =>
    if rest.drop data.length = [] then some (.write side k (rest.drop data.length), none) else none
  | op, .success _ _ => some (op, none)
  | op, .failure ec => some (op, some ec)

/-- The step that an operation goes on with. -/
def Op.next : Op → Completion → Op
  | readBody side k limit httpBody, .success data _ => readBody side k limit (httpBody ++ data)
  | connect k (_ :: entries), .failure _ => connect k entries
  | write side k rest, .success data _ => write side k (rest.drop data.length)
  | op, _ => op

@[simp] theorem Op.next_socket (op : Op) (c : Completion) : (op.next c).socket = op.socket := by
  rcases op with _ | _ | _ | ⟨k, _ | ⟨entry, entries⟩⟩ | _ <;> cases c <;> rfl

/-- A completion that an operation starts with, for it has nothing to wait for. -/
def Completion.AtOnce (c : Completion) : Prop := c = .success [] [] ∨ c = .failure .notFound

/-- An action of the peers or of a handler that neither starts nor ends anything. -/
def Action.Passive : Action → Prop
  | start _ | wait | finish _ _ _ | stop | timedOut _ => False
  | _ => True

theorem shows_passive {op : Op} {c : Completion} : ∀ a ∈ op.shows c, a.Passive := by
  intro a ha
  cases op <;> cases c <;> simp only [Op.shows, List.mem_singleton, List.not_mem_nil] at ha <;> rw [ha] <;> trivial

/-- What a handler can make of a session in which no operation is outstanding. -/
inductive Outcome (s t : Socket) : Prop
  | returns {newer : List Action} : (∀ a ∈ newer, a.Passive) → t.trace = newer ++ s.trace →
      t.stopped = s.stopped → (t.timer = s.timer ∨ t.timer = s.timer.cancel) → t.now = s.now →
      t.outstanding = [] → Outcome s t
  | closes {newer : List Action} : (∀ a ∈ newer, a.Passive) → t.trace = .stop :: (newer ++ s.trace) →
      s.stopped = false → t.stopped = true → t.timer = s.timer.cancel → t.now = s.now →
      t.outstanding = [] → Outcome s t
  | starts {newer : List Action} {op : Op} {q : Option Completion} : (∀ a ∈ newer, a.Passive) →
      t.trace = .start op :: (newer ++ s.trace) → t.stopped = s.stopped →
      (t.timer = s.timer ∨ t.timer = s.timer.cancel) → t.now = s.now → t.outstanding = [⟨op, q⟩] →
      (∀ c ∈ q, c.AtOnce) → Outcome s t

@[simp] theorem Timer.cancel_cancel (t : Timer) : t.cancel.cancel = t.cancel := by
  simp [Timer.cancel]

namespace Outcome
variable {s s' t : Socket} {side : Side} {k n : Nat} {ec : Option ErrorCode}

theorem refl (idle : s.outstanding = []) : Outcome s s :=
  @Outcome.returns s s [] nofun rfl rfl (Or.inl rfl) rfl idle

theorem startOp (idle : s.outstanding = []) (op : Op) {q : Option Completion}
    (hq : ∀ c ∈ q, c.AtOnce) : Outcome s (s.startOp op q) :=
  @Outcome.starts s _ [] op q nofun rfl rfl (Or.inl rfl) rfl (by simp [idle]) hq

theorem startWaiting (idle : s.outstanding = []) (op : Op) : Outcome s (s.startOp op none) := startOp idle op nofun

/-- A handler comes to the same from a session with other texts, hosts or sockets, or whose timer it cancels. -/
theorem congr (h : Outcome s' t) (ht : s'.trace = s.trace) (hs : s'.stopped = s.stopped)
    (hw : s'.timer = s.timer ∨ s'.timer = s.timer.cancel) (hc : s'.now = s.now) : Outcome s t := by
  have cancelled : t.timer = s'.timer.cancel → t.timer = s.timer.cancel := by
    intro htm
    rcases hw with hw | hw <;> rw [htm, hw]
    exact Timer.cancel_cancel _
  have kept : t.timer = s'.timer ∨ t.timer = s'.timer.cancel → t.timer = s.timer ∨ t.timer = s.timer.cancel := by
    intro htm
    rcases htm with htm | htm
    · rw [htm]
      exact hw
    · exact Or.inr (cancelled htm)
  cases h with
  | returns hn htr hst htm hnow ho => exact .returns hn (ht ▸ htr) (hst.trans hs) (kept htm) (hnow.trans hc) ho
  | closes hn htr hst hst' htm hnow ho =>
    exact .closes hn (ht ▸ htr) (hs ▸ hst) hst' (cancelled htm) (hnow.trans hc) ho
  | starts hn htr hst htm hnow ho hq =>
    exact .starts hn (ht ▸ htr) (hst.trans hs) (kept htm) (hnow.trans hc) ho hq

/-- The host that a handler finds first belongs to its outcome. -/
theorem host {request name : Bytes} (h : Outcome (s.log (.host k request name)) t) : Outcome s t := by
  have more : ∀ newer : List Action, (∀ a ∈ newer, a.Passive) →
      ∀ a ∈ newer ++ [.host k request name], a.Passive := by
    intro newer hn a ha
    rcases List.mem_append.mp ha with ha | ha
    · exact hn a ha
    · rw [List.mem_singleton.mp ha]
      trivial
  have join : ∀ newer : List Action,
      newer ++ (s.log (.host k request name)).trace = newer ++ [.host k request name] ++ s.trace := by
    intro newer
    rw [List.append_assoc]
    rfl
  cases h with
  | @returns newer hn htr hst htm hnow ho => exact .returns (more newer hn) (htr.trans (join newer)) hst htm hnow ho
  | @closes newer hn htr hst hst' htm hnow ho =>
    exact .closes (more newer hn) (by rw [htr, join]) hst hst' htm hnow ho
  | @starts newer op q hn htr hst htm hnow ho hq =>
    exact .starts (more newer hn) (by rw [htr, join]) hst htm hnow ho hq

theorem close (idle : s.outstanding = []) : Outcome s s.close := by
  cases hs : s.stopped
  · refine @Outcome.closes s s.close [] nofun ?_ hs Socket.close_stopped ?_ ?_ (Socket.close_outstanding_nil idle)
    · rw [Socket.close_of_not_stopped hs, List.nil_append]
    · rw [Socket.close_of_not_stopped hs]
    · rw [Socket.close_of_not_stopped hs]
  · rw [Socket.close_of_stopped hs]
    exact refl idle

/-- A write starts with its completion queued when it has nothing to send. -/
theorem startWrite (idle : s.outstanding = []) (msg : Bytes) :
    Outcome s (s.startOp (.write side k msg) (if msg = [] then some (.success [] []) else none)) := by
  refine startOp idle _ fun c hc => ?_
  split at hc
  · exact Or.inl (Option.some.inj hc).symm
  · cases hc

theorem sendMessageToServer (idle : s.outstanding = []) : Outcome s (s.sendMessageToServer k) := startWrite idle _

theorem callback (idle : s.outstanding = []) : Outcome s (s.callback side k) := by
  cases side
  · rcases Socket.callback_client_cases s k with h | ⟨-, -, h⟩ <;> rw [h]
    · exact startWaiting idle _
    · exact sendMessageToServer idle
  · exact startWrite idle _

theorem readBody (idle : s.outstanding = []) {header : Bytes} (h : s.readBody side k header = .ok t) :
    Outcome s t := by
  rcases Socket.readBody_cases h with ⟨-, rfl⟩ | ⟨-, rfl⟩ | ⟨-, limit, q, rfl, hq⟩
  · exact refl idle
  · exact callback idle
  · refine startOp idle _ fun c hc => ?_
    rcases hq with rfl | ⟨-, rfl⟩
    · cases hc
    · exact Or.inl (Option.some.inj hc).symm

theorem headerHandler (idle : s.outstanding = []) (h : s.headerHandler side k ec n = .ok t) : Outcome s t := by
  cases side
  · have cancelled : s.cancelTimer.timer = s.timer ∨ s.cancelTimer.timer = s.timer.cancel := Or.inr rfl
    rcases Socket.clientHeaderHandler_cases h with ⟨rfl, -⟩ | ⟨rfl, -, -⟩ | ⟨-, -, -, host, -, hb⟩
    · exact (refl (s := s.cancelTimer) idle).congr rfl rfl cancelled rfl
    · exact (close (s := s.cancelTimer) idle).congr rfl rfl cancelled rfl
    · have out := (readBody (s := Socket.log { s.cancelTimer with currHost := host } _) idle hb).host
      exact out.congr rfl rfl cancelled rfl
  · rcases Socket.serverHeaderHandler_cases h with ⟨rfl, -⟩ | ⟨rfl, -, -⟩ | ⟨-, -, hb⟩
    · exact refl idle
    · exact close idle
    · exact readBody idle hb

theorem sharedHandler (idle : s.outstanding = []) {httpBody : Bytes}
    (h : s.sharedHandler side k httpBody ec = .ok t) : Outcome s t := by
  rcases Socket.sharedHandler_cases h with ⟨-, rfl⟩ | ⟨-, rfl⟩
  · exact (callback (s := s.append side k httpBody) idle).congr rfl rfl (Or.inl rfl) rfl
  · exact (refl (s := s.append side k httpBody) idle).congr rfl rfl (Or.inl rfl) rfl

theorem writeHandler (idle : s.outstanding = []) (h : s.writeHandler side k ec = .ok t) : Outcome s t := by
  rcases Socket.writeHandler_cases h with ⟨-, rfl⟩ | ⟨-, -, ⟨rfl, rfl⟩ | ⟨rfl, rfl⟩⟩
  · exact refl idle
  · exact (startWaiting (s := { s with prevHost := s.currHost, messages := s.messages ++ [([], [])] }) idle _).congr
      rfl rfl (Or.inl rfl) rfl
  · exact startWaiting idle _

theorem connectHandler (idle : s.outstanding = []) (k : Nat) (ec : Option ErrorCode) :
    Outcome s (s.connectHandler k ec) := by
  rcases Socket.connectHandler_cases s k ec with ⟨h, -⟩ | h | ⟨-, -, h⟩ <;> rw [h]
  · exact refl idle
  · exact close idle
  · exact sendMessageToServer idle

theorem resolveHandler (idle : s.outstanding = []) {entries : List Entry} :
    Outcome s (s.resolveHandler k ec entries) := by
  rcases Socket.resolveHandler_cases s k ec entries with ⟨h, -⟩ | h | ⟨-, -, h⟩ <;> rw [h]
  · exact refl idle
  · exact close idle
  · unfold Socket.connectToEndpoints
    split
    · exact startOp idle _ fun c hc => Or.inr (Option.some.inj hc).symm
    · exact (startWaiting (s := { s with serverSocket := .opened }) idle _).congr rfl rfl (Or.inl rfl) rfl

theorem stopped (h : Outcome s t) (hs : s.stopped = true) : t.stopped = true := by
  cases h with
  | returns _ _ hst => exact hst.trans hs
  | closes _ _ _ hst' => exact hst'
  | starts _ _ hst => exact hst.trans hs

end Outcome

/-- A completion lets its operation wait again, or its final handler comes to an outcome. -/
theorem Socket.resume_outcome {s t : Socket} {op : Op} {c : Completion} (idle : s.outstanding = [])
    (h : s.resume op c = .ok t) :
    (op.final s c = none ∧ t.outstanding = [⟨op.next c, none⟩] ∧ t.trace = s.trace ∧
      t.stopped = s.stopped ∧ t.timer = s.timer ∧ t.now = s.now) ∨
    ∃ op' ec, op.final s c = some (op', ec) ∧ Outcome (s.finish op' ec) t := by
  cases op with
  | readHeader side k =>
    cases c with
    | success data endpoints =>
      simp only [resume] at h
      simp only [Op.final]
      split at h
      · rename_i pos hpos
        rw [hpos]
        have out := Outcome.headerHandler (s := (s.append side k data).finish _ none) idle h
        exact Or.inr ⟨_, _, rfl, out.congr rfl rfl (Or.inl rfl) rfl⟩
      · rename_i hnone
        rw [hnone, ← Except.ok.inj h]
        exact Or.inl ⟨rfl, by simp [idle, Op.next], rfl, rfl, rfl, rfl⟩
    | failure ec => exact Or.inr ⟨_, _, rfl, Outcome.headerHandler (s := s.finish _ (some ec)) idle h⟩
  | readBody side k limit httpBody =>
    cases c with
    | success data endpoints =>
      simp only [resume] at h
      simp only [Op.final]
      split at h
      · rename_i hdone
        rw [if_pos hdone]
        exact Or.inr ⟨_, _, rfl, Outcome.sharedHandler (s := s.finish _ none) idle h⟩
      · rename_i hdone
        rw [if_neg hdone, ← Except.ok.inj h]
        exact Or.inl ⟨rfl, by simp [idle, Op.next], rfl, rfl, rfl, rfl⟩
    | failure ec => exact Or.inr ⟨_, _, rfl, Outcome.sharedHandler (s := s.finish _ (some ec)) idle h⟩
  | resolve k host =>
    cases c with
    | success data endpoints =>
      rw [← Except.ok.inj h]
      exact Or.inr ⟨_, _, rfl, Outcome.resolveHandler (s := s.finish _ none) idle⟩
    | failure ec =>
      rw [← Except.ok.inj h]
      exact Or.inr ⟨_, _, rfl, Outcome.resolveHandler (s := s.finish _ (some ec)) idle⟩
  | connect k entries =>
    cases c with
    | success data endpoints =>
      cases entries with
      | nil =>
        rw [← Except.ok.inj h]
        exact Or.inr ⟨_, _, rfl, Outcome.connectHandler (s := s.finish _ none) idle k none⟩
      | cons entry rest =>
        rw [← Except.ok.inj h]
        have out := Outcome.connectHandler
          (s := { s with serverSocket := .connected entry }.finish (.connect k (entry :: rest)) none) idle k none
        exact Or.inr ⟨_, _, by cases rest <;> rfl, out.congr rfl rfl (Or.inl rfl) rfl⟩
    | failure ec =>
      rcases entries with _ | ⟨entry, _ | ⟨next, rest⟩⟩ <;> rw [← Except.ok.inj h]
      · exact Or.inr ⟨_, _, rfl, Outcome.connectHandler (s := s.finish _ (some ec)) idle k (some ec)⟩
      · exact Or.inr ⟨_, _, rfl, Outcome.connectHandler (s := s.finish _ (some ec)) idle k (some ec)⟩
      · exact Or.inl ⟨rfl, by simp [idle, Op.next], rfl, rfl, rfl, rfl⟩
  | write side k rest =>
    cases c with
    | success data endpoints =>
      simp only [resume] at h
      simp only [Op.final]
      split at h
      · rename_i hrest
        rw [if_pos hrest]
        exact Or.inr ⟨_, _, rfl, Outcome.writeHandler (s := s.finish _ none) idle h⟩
      · rename_i hrest
        rw [if_neg hrest, ← Except.ok.inj h]
        exact Or.inl ⟨rfl, by simp [idle, Op.next], rfl, rfl, rfl, rfl⟩
    | failure ec => exact Or.inr ⟨_, _, rfl, Outcome.writeHandler (s := s.finish _ (some ec)) idle h⟩

/-- No completion takes the stop back. -/
theorem Socket.resume_stopped {s t : Socket} {op : Op} {c : Completion} (idle : s.outstanding = [])
    (stopped : s.stopped = true) (h : s.resume op c = .ok t) : t.stopped = true := by
  rcases resume_outcome idle h with ⟨-, -, -, hst, -⟩ | ⟨op', ec, -, out⟩
  · exact hst.trans stopped
  · exact out.stopped stopped

/-- A completion leaves the timer alone or cancels it. -/
theorem Socket.resume_timer {s t : Socket} {op : Op} {c : Completion} (idle : s.outstanding = [])
    (h : s.resume op c = .ok t) : t.timer = s.timer ∨ t.timer = s.timer.cancel := by
  rcases resume_outcome idle h with ⟨-, -, -, -, htm, -⟩ | ⟨op', ec, -, out⟩
  · exact Or.inl htm
  · cases out with
    | returns _ _ _ htm => exact htm
    | closes _ _ _ _ htm => exact Or.inr htm
    | starts _ _ _ htm => exact htm

theorem Socket.resume_now {s t : Socket} {op : Op} {c : Completion} (idle : s.outstanding = [])
    (h : s.resume op c = .ok t) : t.now = s.now := by
  rcases resume_outcome idle h with ⟨-, -, -, -, -, hnow⟩ | ⟨op', ec, -, out⟩
  · exact hnow
  · cases out with
    | returns _ _ _ _ hnow => exact hnow
    | closes _ _ _ _ _ hnow => exact hnow
    | starts _ _ _ _ hnow => exact hnow

/-- The handler of the timer adds nothing to the log, or it times the session out, or waits again. -/
theorem Socket.handleWait_log (s : Socket) (ec : Option ErrorCode) :
    ((s.handleWait ec).trace = s.trace ∧ (s.handleWait ec).stopped = s.stopped ∧ (s.handleWait ec).timer = s.timer) ∨
    (s.stopped = false ∧ ec = none ∧ (s.handleWait ec).trace = .stop :: .timedOut s.now :: s.trace ∧
      (s.handleWait ec).stopped = true ∧ (s.handleWait ec).timer = s.timer.cancel) ∨
    (s.stopped = false ∧ ec = some .operationAborted ∧ (s.handleWait ec).trace = .wait :: s.trace ∧
      (s.handleWait ec).stopped = false ∧ (s.handleWait ec).timer = s.timer.asyncWait) := by
  rcases handleWait_cases s ec with h | ⟨running, hec, h⟩ | ⟨running, hec, h⟩ <;> rw [h]
  · exact Or.inl ⟨rfl, rfl, rfl⟩
  · rw [close_of_not_stopped (s := s.log (.timedOut s.now)) running]
    exact Or.inr (Or.inl ⟨running, hec, rfl, rfl, rfl⟩)
  · exact Or.inr (Or.inr ⟨running, hec, rfl, running, rfl⟩)

end HttpProxy
