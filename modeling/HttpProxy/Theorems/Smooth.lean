import HttpProxy.Theorems.Exchange
import HttpProxy.Theorems.Outcome
import HttpProxy.Theorems.Replies

/-! The rounds of a conversation that goes well. Each completion carries its round on: the message is read as far as it
    has come, a message that is read in full is handed on, and a reply that is sent is followed by the next request. -/

namespace HttpProxy
open Search Machine

/-! ### The course of a round -/

/-- What is outstanding in a round, as far as the peers have answered it. -/
def Outstanding.Awaits (x : Exchange) (s : Socket) : Outstanding → Prop
  | ⟨.readHeader side k, q⟩ => (x.said side).Uncut (takenSince side k s.trace) ∧ ∀ c ∈ q, ∃ data, c = .success data []
  | ⟨.readBody side k limit _, q⟩ =>
    (limit = none → ∃ chunks last begun, (x.said side).payload = .chunked chunks last ∧
      s.message side k = (x.said side).head ++ begun ∧
        begun.length + lastChunk.length ≤ (x.said side).payload.render.length) ∧ ∀ c ∈ q, ∃ data, c = .success data []
  | ⟨.resolve _ _, q⟩ => ∀ c ∈ q, ∃ endpoints, endpoints ≠ [] ∧ c = .success [] endpoints
  | ⟨.connect _ entries, q⟩ => entries ≠ [] ∧
    ∀ c ∈ q, c = .success [] [] ∨ ∃ ec, 1 < entries.length ∧ c = .failure ec
  | ⟨.write _ _ rest, q⟩ => rest ≠ [] ∧ ∀ c ∈ q, ∃ data, data ≠ [] ∧ c = .success data []

/-- Whether all that a side says in the round is read. -/
def Op.heardOut : Op → Side → Bool
  | resolve _ _, .client | connect _ _, .client | write _ _ _, .client => true
  | readHeader .server _, .client | readBody .server _ _ _, .client | write .client _ _, .server => true
  | _, _ => false

/-- A session in round `k` of a conversation that goes well. -/
structure Smooth (xs : List Exchange) (x : Exchange) (k : Nat) (s : Socket) : Prop where
  exchange : xs[k]? = some x
  within : ∀ side, session.Within (Framed (.exchanges xs side)) s
  running : s.stopped = false
  connected : s.clientConnected = true
  patient : s.now < s.timer.expiry ∧ ∀ ec ∈ s.timer.queue, ec = some .operationAborted
  told : ∀ side, taken side s.trace = texts side (xs.take k) ++ takenSince side k s.trace
  heard : ∀ side, takenSince side k s.trace <+: (x.said side).text
  stage : ∃ o, s.outstanding = [o] ∧ o.op.msgId = k ∧ o.Awaits x s ∧
    ∀ side, o.op.heardOut side = true → takenSince side k s.trace = (x.said side).text

/-! ### Steps that move no byte -/

/-- An action that moves no byte and begins no round. -/
def Action.still : Action → Bool
  | taken _ _ | start (.readHeader .client _) => false
  | _ => true

theorem taken_still {side : Side} {a : Action} (h : a.still = true) (log : List Action) :
    taken side (a :: log) = taken side log := by
  cases a with
  | taken side' data => cases h
  | _ => rfl

theorem takenSince_still {side : Side} {k : Nat} {a : Action} (h : a.still = true) (log : List Action) :
    takenSince side k (a :: log) = takenSince side k log := by
  cases a with
  | taken side' data => cases h
  | start op =>
    cases op with
    | readHeader side' k' =>
      cases side'
      · cases h
      · rfl
    | _ => rfl
  | _ => rfl

/-- A session whose log went on by such actions. -/
structure Still (s t : Socket) : Prop where
  running : t.stopped = s.stopped
  log : ∃ newer, t.trace = newer ++ s.trace ∧ ∀ a ∈ newer, a.still = true

namespace Still
variable {s t u : Socket}

theorem quiet (hs : t.stopped = s.stopped) (ht : t.trace = s.trace) : Still s t := ⟨hs, [], ht, nofun⟩

theorem one {a : Action} (hs : t.stopped = s.stopped) (ht : t.trace = a :: s.trace) (ha : a.still = true) : Still s t :=
  ⟨hs, [a], ht, fun _ hb => List.mem_singleton.mp hb ▸ ha⟩

theorem trans (h : Still s t) (h' : Still t u) : Still s u := by
  obtain ⟨newer, ht, hn⟩ := h.log
  obtain ⟨newer', hu, hn'⟩ := h'.log
  refine ⟨h'.running.trans h.running, newer' ++ newer, by rw [hu, ht, List.append_assoc], fun a ha => ?_⟩
  rcases List.mem_append.mp ha with ha | ha
  · exact hn' a ha
  · exact hn a ha

theorem taken_eq (h : Still s t) (side : Side) : taken side t.trace = taken side s.trace := by
  obtain ⟨newer, ht, hn⟩ := h.log
  rw [ht]
  clear ht
  induction newer with
  | nil => rfl
  | cons a newer ih =>
    rw [List.cons_append, taken_still (hn a List.mem_cons_self)]
    exact ih fun b hb => hn b (List.mem_cons_of_mem a hb)

theorem since_eq (h : Still s t) (side : Side) (k : Nat) : takenSince side k t.trace = takenSince side k s.trace := by
  obtain ⟨newer, ht, hn⟩ := h.log
  rw [ht]
  clear ht
  induction newer with
  | nil => rfl
  | cons a newer ih =>
    rw [List.cons_append, takenSince_still (hn a List.mem_cons_self)]
    exact ih fun b hb => hn b (List.mem_cons_of_mem a hb)

theorem startOp {op : Op} {q : Option Completion} (h : (Action.start op).still = true) : Still s (s.startOp op q) :=
  .one rfl rfl h

end Still

namespace Socket
variable {s t : Socket} {side : Side} {k n : Nat}

/-- What the callback of a body read starts: it hands the message on, or first looks for the server. -/
theorem callback_next (side : Side) (k : Nat) (idle : s.outstanding = []) : Still s (s.callback side k) ∧ ∃ o,
    (s.callback side k).outstanding = [o] ∧
      (side = .client ∧ o = ⟨.resolve k s.currHost, none⟩ ∨
        o = ⟨.write side.other k (s.message side k), if s.message side k = [] then some (.success [] []) else none⟩ ∧
          .start (.write side.other k (s.message side k)) ∈ (s.callback side k).trace) := by
  have written : ∀ side', Still s (s.startOp (.write side' k (s.message side k))
      (if s.message side k = [] then some (.success [] []) else none)) := fun side' => .startOp rfl
  cases side with
  | client =>
    rcases callback_client_cases s k with h | ⟨-, -, h⟩ <;> rw [h]
    · exact ⟨.startOp rfl, ⟨.resolve k s.currHost, none⟩, by simp [idle], Or.inl ⟨rfl, rfl⟩⟩
    · exact ⟨written .server, _, by simp [sendMessageToServer, idle]; rfl, Or.inr ⟨rfl, List.mem_cons_self⟩⟩
  | server =>
    exact ⟨written .client, _, by simp [callback, sendMessageToClient, idle]; rfl, Or.inr ⟨rfl, List.mem_cons_self⟩⟩

/-- The handler of a header goes on to `read_body`, from a session with the same texts. -/
theorem headerHandler_reads (running : s.stopped = false)
    (ok : side = .client → supported (s.message side k) = true) (h : s.headerHandler side k none n = .ok t) :
    ∃ s', Still s s' ∧ s'.messages = s.messages ∧ s'.outstanding = s.outstanding ∧
      s'.readBody side k ((s.message side k).take n) = .ok t := by
  cases side with
  | client =>
    have handled : s.clientHeaderHandler k none n = .ok t := h
    rcases clientHeaderHandler_cases handled with
      ⟨-, hst | hec | ⟨-, v, hv, hgt⟩⟩ | ⟨-, -, hec⟩ | ⟨-, -, -, host, -, hb⟩
    · cases running.symm.trans hst
    · cases hec
    · simp [supported, hv, hgt] at ok
    · cases hec
    · refine ⟨_, ?_, ?_, ?_, hb⟩
      · exact .one rfl rfl rfl
      · rfl
      · rfl
  | server =>
    have handled : s.serverHeaderHandler k none n = .ok t := h
    rcases serverHeaderHandler_cases handled with ⟨-, hst | hec | hec⟩ | ⟨-, -, hec⟩ | ⟨-, -, hb⟩
    · cases running.symm.trans hst
    · cases hec
    · cases hec
    · cases hec
    · exact ⟨s, .quiet rfl rfl, rfl, rfl, hb⟩

/-- A read of a header goes on, or comes to `read_body`. -/
theorem resume_readHeader {data : Bytes} (running : s.stopped = false)
    (ok : side = .client → (find? headerEnd ((s.append side k data).message side k)).isSome = true →
      supported ((s.append side k data).message side k) = true)
    (h : s.resume (.readHeader side k) (.success data []) = .ok t) :
    t = (s.append side k data).again (.readHeader side k) ∨
    ∃ pos s', find? headerEnd ((s.append side k data).message side k) = some pos ∧ Still s s' ∧
      s'.messages = (s.append side k data).messages ∧ s'.outstanding = s.outstanding ∧
        s'.readBody side k (((s.append side k data).message side k).take (pos + headerEnd.length)) = .ok t := by
  have finished : Still s ((s.append side k data).finish (.readHeader side k) none) := .one rfl rfl rfl
  simp only [resume] at h
  split at h
  · rename_i pos hpos
    right
    have found : (find? headerEnd ((s.append side k data).message side k)).isSome = true := by rw [hpos]; rfl
    obtain ⟨s', still, messages, idle, hb⟩ := headerHandler_reads
      (s := (s.append side k data).finish (.readHeader side k) none) running (fun hs => ok hs found) h
    exact ⟨pos, s', hpos, finished.trans still, messages, idle, hb⟩
  · left
    exact (Except.ok.inj h).symm

/-- A resolution that finds endpoints goes on to connect to them. -/
theorem resume_resolve {host : Bytes} {endpoints : List Endpoint} (running : s.stopped = false) (hne : endpoints ≠ [])
    (h : s.resume (.resolve k host) (.success [] endpoints) = .ok t) :
    ∃ entries, entries ≠ [] ∧ Still s t ∧ t.outstanding = s.outstanding ++ [⟨.connect k entries, none⟩] := by
  have entries : (endpoints.map fun e => (⟨e, host, ascii "http"⟩ : Entry)) ≠ [] := by simpa using hne
  refine ⟨_, entries, ?_⟩
  rw [← Except.ok.inj h]
  simp only [resolveHandler, finish_stopped, running, Bool.false_eq_true, ↓reduceIte, connectToEndpoints, entries]
  refine ⟨⟨running.symm, [.start (.connect k _), .finish (.resolve k host) none s.now], rfl, ?_⟩, rfl⟩
  simp [Action.still]

/-- A connection is made, and the request is written on it. -/
theorem resume_connect {entries : List Entry} (running : s.stopped = false) (hne : s.message .client k ≠ [])
    (h : s.resume (.connect k entries) (.success [] []) = .ok t) :
    Still s t ∧ t.outstanding = s.outstanding ++ [⟨.write .server k (s.message .client k), none⟩] := by
  have written : (if s.message .client k = [] then some (Completion.success [] []) else none) = none := if_neg hne
  cases entries <;> rw [← Except.ok.inj h] <;>
    simp only [connectHandler, finish_stopped, running, Bool.false_eq_true, ↓reduceIte, sendMessageToServer]
  · refine ⟨⟨rfl, [.start (.write .server k _), .finish (.connect k _) none s.now], rfl, ?_⟩, ?_⟩
    · simp [Action.still]
    · exact congrArg (fun q => s.outstanding ++ [(⟨.write .server k (s.message .client k), q⟩ : Outstanding)]) written
  · refine ⟨⟨running.symm, [.start (.write .server k _), .finish (.connect k _) none s.now], rfl, ?_⟩, ?_⟩
    · simp [Action.still]
    · exact congrArg (fun q => s.outstanding ++ [(⟨.write .server k (s.message .client k), q⟩ : Outstanding)]) written

end Socket

/-! ### The measure -/

/-- How many operations of the round are still to come. -/
def Op.phase : Op → Nat
  | readHeader .client _ => 7
  | readBody .client _ _ _ => 6
  | resolve _ _ => 5
  | connect _ _ => 4
  | write .server _ _ => 3
  | readHeader .server _ => 2
  | readBody .server _ _ _ => 1
  | write .client _ _ => 0

/-- A bound on the events of an operation, where `left` bytes of a side are still to be read. -/
def Outstanding.ahead (left : Side → Nat) : Outstanding → Nat
  | ⟨.readHeader side _, q⟩ | ⟨.readBody side _ _ _, q⟩ => 2 * left side + if q.isSome then 1 else 0
  | ⟨.resolve _ _, q⟩ => if q.isSome then 0 else 1
  | ⟨.connect _ entries, q⟩ => 2 * entries.length + if q.isSome then 0 else 1
  | ⟨.write _ _ rest, q⟩ => 2 * rest.length + if q.isSome then 0 else 1

/-- The bytes of a message that are still to be read. -/
def unsaid (xs : List Exchange) (k : Nat) (s : Socket) (side : Side) : Nat :=
  (Script.exchanges xs side).len k - (takenSince side k s.trace).length

/-- The operations to come, the events of the outstanding one, and those of the timer. -/
def rank (xs : List Exchange) (s : Socket) : Nat × Nat × Nat :=
  match s.outstanding with
  | [o] => (8 * (xs.length - o.op.msgId) + o.op.phase, o.ahead (unsaid xs o.op.msgId s),
      s.timer.queue.length + (s.timer.expiry - s.now))
  | _ => (0, 0, 0)

abbrev Lower : Nat × Nat × Nat → Nat × Nat × Nat → Prop := Prod.Lex (· < ·) (Prod.Lex (· < ·) (· < ·))

theorem lower_wf : WellFounded Lower :=
  WellFounded.prod_lex Nat.lt_wfRel.wf (WellFounded.prod_lex Nat.lt_wfRel.wf Nat.lt_wfRel.wf)

section Rank
variable {xs : List Exchange} {s t : Socket} {o o' : Outstanding}

theorem rank_of (hone : s.outstanding = [o]) : rank xs s = (8 * (xs.length - o.op.msgId) + o.op.phase,
    o.ahead (unsaid xs o.op.msgId s), s.timer.queue.length + (s.timer.expiry - s.now)) := by
  simp [rank, hone]

theorem lower_of_phase (hone : s.outstanding = [o]) (next : t.outstanding = [o']) (hk : o'.op.msgId = o.op.msgId)
    (h : o'.op.phase < o.op.phase) : Lower (rank xs t) (rank xs s) := by
  rw [rank_of hone, rank_of next, hk]
  exact Prod.Lex.left _ _ (Nat.add_lt_add_left h _)

theorem lower_of_ahead (hone : s.outstanding = [o]) (next : t.outstanding = [o']) (hk : o'.op.msgId = o.op.msgId)
    (hp : o'.op.phase = o.op.phase)
    (h : o'.ahead (unsaid xs o.op.msgId t) < o.ahead (unsaid xs o.op.msgId s)) : Lower (rank xs t) (rank xs s) := by
  rw [rank_of hone, rank_of next, hk, hp]
  exact Prod.Lex.right _ (Prod.Lex.left _ _ h)

end Rank

namespace Smooth
variable {xs : List Exchange} {x : Exchange} {k : Nat} {s t : Socket} {op : Op} {o : Outstanding} {c : Completion}

theorem reachable (h : Smooth xs x k s) : session.Reachable s := (h.within .client).reachable

theorem at_stage (h : Smooth xs x k s) (hone : s.outstanding = [o]) : o.op.msgId = k ∧ o.Awaits x s ∧
    ∀ side, o.op.heardOut side = true → takenSince side k s.trace = (x.said side).text := by
  obtain ⟨o', ho, stage⟩ := h.stage
  obtain rfl : o = o' := List.singleton_inj.mp (hone.symm.trans ho)
  exact stage

/-- What was taken in the round is in the texts of its messages and in the operation. -/
theorem stored (h : Smooth xs x k s) (hone : s.outstanding = [o]) (side : Side) :
    takenSince side k s.trace = s.message side k ++ o.inFlight side := by
  obtain ⟨hk, -⟩ := h.at_stage hone
  rw [← hk]
  exact (reachable_transparent h.reachable).held o (hone ▸ List.mem_singleton_self o) side

/-- A completion agrees with what is said. -/
theorem framed (h : Smooth xs x k s) (hone : s.outstanding = [⟨op, some c⟩]) (side : Side) :
    Framed (.exchanges xs side) s (.dispatch 0) := by
  intro o ho c' hc
  obtain rfl : ⟨op, some c⟩ = o := by simpa [hone] using ho
  obtain rfl : c = c' := Option.some.inj hc
  obtain ⟨hk, awaits, -⟩ := h.at_stage hone
  have text := h.stored hone side
  show op.Framed (.exchanges xs side) s c
  cases op with
  | readHeader side' k' =>
    obtain rfl : k' = k := hk
    obtain ⟨data, rfl⟩ := awaits.2 c rfl
    intro hs _ pos hpos _
    obtain rfl : side' = side := hs
    have read : takenSince side' k' s.trace = s.message side' k' ++ data := by
      simpa [Outstanding.inFlight, Completion.data] using text
    exact headerFits h.exchange (read ▸ h.heard side') hpos
  | readBody side' k' limit httpBody =>
    obtain rfl : k' = k := hk
    obtain ⟨data, rfl⟩ := awaits.2 c rfl
    cases limit with
    | some n => trivial
    | none =>
      intro hs
      obtain rfl : side' = side := hs
      obtain ⟨chunks, last, begun, hpayload, hmessage, hcut⟩ := awaits.1 rfl
      have read : takenSince side' k' s.trace = s.message side' k' ++ (httpBody ++ data) := by
        simpa [Outstanding.inFlight, Completion.data] using text
      have whole : (x.said side').text = (x.said side').head ++ (Http.Payload.chunked chunks last).render := by
        rw [Spoken.text, hpayload]
      have hpre := h.heard side'
      rw [read, hmessage, List.append_assoc, whole] at hpre
      rw [Script.exchanges_len h.exchange, hmessage, whole]
      exact chunksEnd_of_recognised (hpayload ▸ (x.said side').recognised) ((List.prefix_append_right_inj _).mp hpre)
        (hpayload ▸ hcut)
  | resolve | connect | write => cases c <;> trivial

/-- The handler of a completion returns. -/
theorem contained (h : Smooth xs x k s) (hone : s.outstanding = [⟨op, some c⟩]) :
    op.Contained { s with outstanding := [] } c := by
  obtain ⟨hk, awaits, -⟩ := h.at_stage hone
  have current : op.msgId + 1 = s.messages.length :=
    (reachable_chain h.reachable).current _ (hone ▸ List.mem_singleton_self _)
  cases op with
  | readHeader side k' =>
    obtain rfl : k' = k := hk
    obtain ⟨data, rfl⟩ := awaits.2 c rfl
    have read : takenSince side k' s.trace = s.message side k' ++ data := by
      simpa [Outstanding.inFlight, Completion.data] using h.stored hone side
    have text : ({ s with outstanding := [] }.append side k' data).message side k' = takenSince side k' s.trace :=
      (Socket.message_append (s := { s with outstanding := [] }) (current ▸ Nat.lt_succ_self _) data).trans read.symm
    intro pos hpos
    rw [text] at hpos ⊢
    obtain ⟨-, ends, -⟩ := headerFits h.exchange (h.heard side) hpos
    right
    cases side with
    | client =>
      obtain ⟨hversion, hhost⟩ := x.accepted _ (h.heard .client) (Option.isSome_iff_exists.mpr ⟨pos, hpos⟩)
      unfold supported at hversion
      split at hversion
      · rename_i version hv
        exact ⟨version, hv, fun _ => ⟨h.connected, ⟨x.host, hhost⟩, ends.measured⟩⟩
      · cases hversion
    | server => exact ⟨h.connected, ends.measured⟩
  | readBody side k' limit httpBody =>
    obtain ⟨data, rfl⟩ := awaits.2 c rfl
    trivial
  | resolve | connect =>
    cases c <;> trivial
  | write side k' rest =>
    obtain ⟨data, -, rfl⟩ := awaits.2 c rfl
    trivial

/-! #### What a completion leads to -/

theorem dispatched (hone : s.outstanding = [⟨op, some c⟩]) (hr : { s with outstanding := [] }.resume op c = .ok t) :
    session.Step s (.dispatch 0) t := by
  rw [session_step]
  simp [Socket.step, hone, hr]

theorem within_dispatched (h : Smooth xs x k s) (hone : s.outstanding = [⟨op, some c⟩])
    (hr : { s with outstanding := [] }.resume op c = .ok t) (side : Side) :
    session.Within (Framed (.exchanges xs side)) t :=
  .step _ (h.within side) (h.framed hone side) (dispatched hone hr)

theorem patient_dispatched (h : Smooth xs x k s) (hr : { s with outstanding := [] }.resume op c = .ok t) :
    t.now < t.timer.expiry ∧ ∀ ec ∈ t.timer.queue, ec = some .operationAborted := by
  have hnow : t.now = s.now := Socket.resume_now (s := { s with outstanding := [] }) rfl hr
  have htimer : t.timer = s.timer ∨ t.timer = s.timer.cancel :=
    Socket.resume_timer (s := { s with outstanding := [] }) rfl hr
  rw [hnow]
  rcases htimer with htm | htm <;> rw [htm]
  · exact h.patient
  · refine ⟨h.patient.1, fun ec hec => ?_⟩
    rcases List.mem_append.mp hec with hec | hec
    · exact h.patient.2 ec hec
    · exact List.eq_of_mem_replicate hec

/-- The round goes on with another operation, or with another step of the same one. -/
theorem carry (h : Smooth xs x k s) (hone : s.outstanding = [⟨op, some c⟩])
    (hr : { s with outstanding := [] }.resume op c = .ok t) (still : Still s t) (next : t.outstanding = [o])
    (hk : o.op.msgId = k) (awaits : o.Awaits x t)
    (full : ∀ side, o.op.heardOut side = true → takenSince side k t.trace = (x.said side).text) : Smooth xs x k t where
  exchange := h.exchange
  within := h.within_dispatched hone hr
  running := still.running.trans h.running
  connected := (Socket.resume_clientConnected (s := { s with outstanding := [] }) hr).trans h.connected
  patient := h.patient_dispatched hr
  told side := by rw [still.taken_eq, still.since_eq, h.told]
  heard side := by
    rw [still.since_eq]
    exact h.heard side
  stage := ⟨o, next, hk, awaits, full⟩

/-- A message that is read in full is handed on, or its server is looked for. -/
theorem handOn {s' : Socket} {side : Side} (h : Smooth xs x k s) (hone : s.outstanding = [⟨op, some c⟩])
    (hr : { s with outstanding := [] }.resume op c = .ok t) (still : Still s s') (idle : s'.outstanding = [])
    (ht : t = s'.callback side k) (hop : op.reads side = true) :
    ∃ o, t.outstanding = [o] ∧ o.op.phase < op.phase ∧ Smooth xs x k t := by
  obtain ⟨still', o, next, kind⟩ := Socket.callback_next side k idle
  rw [← ht] at still' next kind
  have moved := still.trans still'
  have within := h.within_dispatched hone hr
  have len := Script.exchanges_len h.exchange side
  have mem : o ∈ t.outstanding := next ▸ List.mem_singleton_self o
  have hk : o.op.msgId = k := by
    rcases kind with ⟨-, rfl⟩ | ⟨rfl, -⟩ <;> rfl
  have text : takenSince side k t.trace = t.message side k := by
    have held := (reachable_transparent (within side).reachable).held o mem side
    rw [hk] at held
    rcases kind with ⟨-, rfl⟩ | ⟨rfl, -⟩ <;> exact held.trans (List.append_nil _)
  have message : t.message side k = s'.message side k := by
    rw [ht]
    exact Socket.message_congr Socket.callback_messages
  have whole : (t.message side k).length = (x.said side).text.length := by
    rcases kind with ⟨rfl, rfl⟩ | ⟨rfl, written⟩
    · exact ((within_fitting (within .client)).fits _ mem rfl).2.trans len
    · rw [message, ← len]
      exact ((within_fitting (within side)).log _ written rfl).2
  have full : takenSince side k t.trace = (x.said side).text := by
    have hpre := h.heard side
    rw [← moved.since_eq, text] at hpre
    rw [text]
    exact hpre.eq_of_length whole
  have before : ∀ side', o.op.heardOut side' = true → takenSince side' k t.trace = (x.said side').text := by
    intro side' hside
    by_cases hs : side' = side
    · rw [hs]
      exact full
    · -- The other side was heard before.
      rw [moved.since_eq]
      refine (h.at_stage hone).2.2 side' ?_
      rcases kind with ⟨rfl, rfl⟩ | ⟨rfl, -⟩
      · cases side' <;> simp_all [Op.heardOut]
      · cases op <;> cases side <;> cases side' <;> simp_all [Op.heardOut, Op.reads, Side.other]
  have nonempty : s'.message side k ≠ [] := by
    rw [← message, ← text, full]
    exact (x.said side).text_ne_nil
  have awaits : o.Awaits x t := by
    rcases kind with ⟨-, rfl⟩ | ⟨rfl, -⟩
    · exact fun c hc => by cases hc
    · refine ⟨nonempty, fun c hc => ?_⟩
      rw [if_neg nonempty] at hc
      cases hc
  have lower : o.op.phase < op.phase := by
    rcases kind with ⟨rfl, rfl⟩ | ⟨rfl, -⟩
    · cases op <;> simp_all [Op.phase, Op.reads]
    · cases op <;> cases side <;> simp_all [Op.phase, Op.reads, Side.other]
  exact ⟨o, next, lower, h.carry hone hr moved next hk awaits before⟩

/-- The next step of the same operation. -/
theorem carryOn (h : Smooth xs x k s) (op' : Op) (hone : s.outstanding = [⟨op, some c⟩])
    (hr : { s with outstanding := [] }.resume op c = .ok t) (still : Still s t) (next : t.outstanding = [⟨op', none⟩])
    (hk : op'.msgId = op.msgId) (hp : op'.phase = op.phase) (awaits : Outstanding.Awaits x t ⟨op', none⟩)
    (heardOut : ∀ side, op'.heardOut side = op.heardOut side)
    (less : ∀ left, Outstanding.ahead left ⟨op', none⟩ < Outstanding.ahead left ⟨op, some c⟩) :
    Smooth xs x k t ∧ Lower (rank xs t) (rank xs s) := by
  obtain ⟨current, -, full⟩ := h.at_stage hone
  have same : unsaid xs op.msgId t = unsaid xs op.msgId s := by
    funext side
    rw [unsaid, still.since_eq, unsaid]
  refine ⟨h.carry hone hr still next (hk.trans current) awaits fun side hside => ?_, ?_⟩
  · rw [still.since_eq]
    exact full side (heardOut side ▸ hside)
  · exact lower_of_ahead hone next hk hp (same ▸ less _)

/-- The read of a header: more of it is read, or the body is read, or the message is handed on. -/
theorem readHeader {side : Side} (h : Smooth xs x k s) (hone : s.outstanding = [⟨.readHeader side k, some c⟩])
    (hr : { s with outstanding := [] }.resume (.readHeader side k) c = .ok t) :
    Smooth xs x k t ∧ Lower (rank xs t) (rank xs s) := by
  obtain ⟨-, ⟨uncut, hc⟩, full⟩ := h.at_stage hone
  obtain ⟨data, rfl⟩ := hc c rfl
  have current : k < s.messages.length :=
    (reachable_chain h.reachable).current _ (hone ▸ List.mem_singleton_self _) ▸ Nat.lt_succ_self _
  have read : takenSince side k s.trace = s.message side k ++ data := by
    simpa [Outstanding.inFlight, Completion.data] using h.stored hone side
  have text : ({ s with outstanding := [] }.append side k data).message side k = takenSince side k s.trace :=
    (Socket.message_append (s := { s with outstanding := [] }) current data).trans read.symm
  have ok : side = .client →
      (find? headerEnd (({ s with outstanding := [] }.append side k data).message side k)).isSome = true →
      supported (({ s with outstanding := [] }.append side k data).message side k) = true := by
    intro hs found
    rw [text] at found ⊢
    subst hs
    exact (x.accepted _ (h.heard .client) found).1
  rcases Socket.resume_readHeader (s := { s with outstanding := [] }) h.running ok hr with
    ht | ⟨pos, s', hpos, still', messages, idle, hb⟩
  · have still : Still s t := .quiet (by rw [ht]; rfl) (by rw [ht]; rfl)
    refine h.carryOn (.readHeader side k) hone hr still (by rw [ht]; rfl) rfl rfl ⟨?_, fun c hc => by cases hc⟩
      (fun _ => rfl) fun left => ?_
    · rw [still.since_eq]
      exact uncut
    · simp [Outstanding.ahead]
  · have still : Still s s' := ⟨still'.running, still'.log⟩
    have message : s'.message side k = takenSince side k s.trace := (Socket.message_congr messages).trans text
    obtain ⟨n, hn, hlen⟩ := (x.said side).ends
    rw [text] at hpos hb
    rw [take_header hn hlen (h.heard side) hpos] at hb
    have handedOn : t = s'.callback side k → Smooth xs x k t ∧ Lower (rank xs t) (rank xs s) := by
      intro ht
      obtain ⟨o, next, less, smooth⟩ := h.handOn hone hr still idle ht (by simp [Op.reads])
      exact ⟨smooth, lower_of_phase hone next (smooth.at_stage next).1 less⟩
    have reading : ∀ limit q, (∀ c ∈ q, ∃ data, c = .success data []) → (limit = none →
        ∃ chunks last begun, (x.said side).payload = .chunked chunks last ∧
          s'.message side k = (x.said side).head ++ begun ∧
            begun.length + lastChunk.length ≤ (x.said side).payload.render.length) →
        t = s'.startOp (.readBody side k limit []) q → Smooth xs x k t ∧ Lower (rank xs t) (rank xs s) := by
      intro limit q hq hlimit ht
      have next : t.outstanding = [⟨.readBody side k limit [], q⟩] := by simp [ht, idle]
      have moved : Still s t := still.trans (ht ▸ .startOp rfl)
      refine ⟨h.carry hone hr moved next rfl ⟨fun hl => ?_, hq⟩ fun side' hside => ?_, ?_⟩
      · rw [ht]
        exact hlimit hl
      · rw [moved.since_eq]
        exact full side' (by cases side <;> cases side' <;> exact hside)
      · exact lower_of_phase hone next rfl (by cases side <;> simp [Op.phase])
    have branch := Socket.readBody_branch (still.running.trans h.running) hb
    split at branch
    · exact handedOn branch
    · obtain ⟨n, -, limit, -, ht⟩ := branch
      refine reading (some limit) _ (fun c hc => ?_) (fun hl => by cases hl) ht
      split at hc
      · exact ⟨[], (Option.some.inj hc).symm⟩
      · cases hc
    · rename_i hbody
      rcases branch with ⟨-, ht⟩ | ⟨unfound, ht⟩
      · exact handedOn ht
      · refine reading none none (fun c hc => by cases hc) (fun _ => ?_) ht
        rw [message] at unfound ⊢
        exact (x.said side).chunks_begun hbody (h.heard side) hpos uncut unfound

/-- The read of a body: more of it is read, or the message is handed on. -/
theorem readBody {side : Side} {limit : Option Nat} {httpBody : Bytes} (h : Smooth xs x k s)
    (hone : s.outstanding = [⟨.readBody side k limit httpBody, some c⟩])
    (hr : { s with outstanding := [] }.resume (.readBody side k limit httpBody) c = .ok t) :
    Smooth xs x k t ∧ Lower (rank xs t) (rank xs s) := by
  obtain ⟨-, ⟨begun, hc⟩, -⟩ := h.at_stage hone
  obtain ⟨data, rfl⟩ := hc c rfl
  have resumed := hr
  simp only [Socket.resume] at resumed
  split at resumed
  · rcases Socket.sharedHandler_cases resumed with ⟨-, ht⟩ | ⟨hec | hec, -⟩
    · have still : Still s (Socket.append ({ s with outstanding := [] }.finish (.readBody side k limit
          (httpBody ++ data)) none) side k (httpBody ++ data)) := .one rfl rfl rfl
      obtain ⟨o, next, less, smooth⟩ := h.handOn hone hr still rfl ht (by simp [Op.reads])
      exact ⟨smooth, lower_of_phase hone next (smooth.at_stage next).1 less⟩
    · cases hec
    · cases hec
  · have ht := (Except.ok.inj resumed).symm
    have still : Still s t := .quiet (by rw [ht]; rfl) (by rw [ht]; rfl)
    refine h.carryOn (.readBody side k limit (httpBody ++ data)) hone hr still (by rw [ht]; rfl) rfl ?_
      ⟨fun hl => ?_, fun c hc => by cases hc⟩ ?_ fun left => ?_
    · cases side <;> rfl
    · rw [ht]
      exact begun hl
    · intro side'
      cases side <;> cases side' <;> rfl
    · simp [Outstanding.ahead]

/-- The search for the server: its endpoints are tried. -/
theorem resolve {host : Bytes} (h : Smooth xs x k s) (hone : s.outstanding = [⟨.resolve k host, some c⟩])
    (hr : { s with outstanding := [] }.resume (.resolve k host) c = .ok t) :
    Smooth xs x k t ∧ Lower (rank xs t) (rank xs s) := by
  obtain ⟨-, hc, full⟩ := h.at_stage hone
  obtain ⟨endpoints, hne, rfl⟩ := hc c rfl
  obtain ⟨entries, hentries, still', next⟩ := Socket.resume_resolve (s := { s with outstanding := [] }) h.running hne hr
  have still : Still s t := ⟨still'.running, still'.log⟩
  refine ⟨h.carry hone hr still next rfl ⟨hentries, fun c hc => by cases hc⟩ fun side hside => ?_, ?_⟩
  · rw [still.since_eq]
    exact full side (by cases side <;> exact hside)
  · exact lower_of_phase hone next rfl (by simp [Op.phase])

/-- The connection to the server: the next endpoint is tried, or the request is written. -/
theorem connect {entries : List Entry} (h : Smooth xs x k s) (hone : s.outstanding = [⟨.connect k entries, some c⟩])
    (hr : { s with outstanding := [] }.resume (.connect k entries) c = .ok t) :
    Smooth xs x k t ∧ Lower (rank xs t) (rank xs s) := by
  obtain ⟨-, ⟨-, hc⟩, full⟩ := h.at_stage hone
  rcases hc c rfl with rfl | ⟨ec, hlen, rfl⟩
  · have request : s.message .client k ≠ [] := by
      have stored := h.stored hone .client
      rw [full .client rfl] at stored
      intro hnil
      exact (x.said .client).text_ne_nil (by rw [stored, hnil]; rfl)
    obtain ⟨still', next⟩ := Socket.resume_connect (s := { s with outstanding := [] }) h.running request hr
    have still : Still s t := ⟨still'.running, still'.log⟩
    refine ⟨h.carry hone hr still next rfl ⟨request, fun c hc => by cases hc⟩ fun side hside => ?_, ?_⟩
    · rw [still.since_eq]
      exact full side (by cases side <;> exact hside)
    · exact lower_of_phase hone next rfl (by simp [Op.phase])
  · obtain ⟨first, second, rest, rfl⟩ : ∃ first second rest, entries = first :: second :: rest := by
      match entries, hlen with
      | first :: second :: rest, _ => exact ⟨first, second, rest, rfl⟩
    have ht := (Except.ok.inj hr).symm
    have still : Still s t := .quiet (by rw [ht]; rfl) (by rw [ht]; rfl)
    refine h.carryOn (.connect k (second :: rest)) hone hr still (by rw [ht]; rfl) rfl rfl
      ⟨by simp, fun c hc => by cases hc⟩ (fun side => by cases side <;> rfl) fun left => ?_
    simp only [Outstanding.ahead, List.length_cons, Option.isSome_none, Option.isSome_some, ↓reduceIte,
      Bool.false_eq_true]
    omega

/-- The reply is sent on: another request is waited for, if there is one. -/
theorem nextRound {rest : Bytes} {op' : Op} {ec : Option ErrorCode} {time : Nat} (h : Smooth xs x k s)
    (hone : s.outstanding = [⟨.write .client k rest, some c⟩])
    (hr : { s with outstanding := [] }.resume (.write .client k rest) c = .ok t) (running : t.stopped = s.stopped)
    (next : t.outstanding = [⟨.readHeader .client (k + 1), none⟩])
    (ht : t.trace = .start (.readHeader .client (k + 1)) :: .finish op' ec time :: s.trace) :
    Concluded xs t ∨ ∃ x', Smooth xs x' (k + 1) t ∧ Lower (rank xs t) (rank xs s) := by
  obtain ⟨-, -, full⟩ := h.at_stage hone
  have within := h.within_dispatched hone hr
  have fresh : ∀ side, takenSince side (k + 1) t.trace = [] := fun side => by rw [ht, takenSince, if_pos rfl]
  have told : ∀ side, taken side t.trace = texts side (xs.take (k + 1)) := by
    intro side
    have same : taken side t.trace = taken side s.trace := by rw [ht]; rfl
    rw [same, h.told side, full side (by cases side <;> rfl), texts_take_succ h.exchange]
  obtain ⟨hlt, -⟩ := List.getElem?_eq_some_iff.mp h.exchange
  cases hx : xs[k + 1]? with
  | some x' =>
    obtain ⟨hlt', -⟩ := List.getElem?_eq_some_iff.mp hx
    refine Or.inr ⟨x', ?_, ?_⟩
    · exact {
        exchange := hx
        within := within
        running := running.trans h.running
        connected := (Socket.resume_clientConnected (s := { s with outstanding := [] }) hr).trans h.connected
        patient := h.patient_dispatched hr
        told := fun side => by rw [told, fresh, List.append_nil]
        heard := fun side => by rw [fresh]; exact List.nil_prefix
        stage := ⟨_, next, rfl, ⟨by rw [fresh]; exact Spoken.uncut_nil _, fun c hc => by cases hc⟩,
          fun side hside => by cases side <;> cases hside⟩ }
    · rw [rank_of hone, rank_of next]
      refine Prod.Lex.left _ _ ?_
      simp only [Op.msgId, Op.phase]
      omega
  | none =>
    have hlen : xs.length = k + 1 := by
      have := List.getElem?_eq_none_iff.mp hx
      omega
    refine Or.inl ⟨hlen ▸ next, fun side => ?_⟩
    -- The relay holds nothing.
    have mem : (⟨.readHeader .client (k + 1), none⟩ : Outstanding) ∈ t.outstanding := next ▸ List.mem_singleton_self _
    have reached : session.Reachable t := (within .client).reachable
    obtain ⟨r, -, hm⟩ := relay_follows.reachable reached
    have held := (reachable_transparent reached).held _ mem .client
    have stage := hm.stage _ mem
    simp only [Outstanding.stage, Outstanding.inFlight, ↓reduceIte, Option.elim_none, List.append_nil, Prod.mk.injEq]
      at held stage
    have empty : r.held = [] := stage.2.2.symm.trans (held.symm.trans (fresh .client))
    have accounts := hm.accounts side
    rw [empty, ite_self, List.append_nil, told] at accounts
    rw [← accounts, ← hlen, List.take_length]

/-- A write: more of the message is written, or its answer is read, or the next request. -/
theorem write {side : Side} {rest : Bytes} (h : Smooth xs x k s)
    (hone : s.outstanding = [⟨.write side k rest, some c⟩])
    (hr : { s with outstanding := [] }.resume (.write side k rest) c = .ok t) :
    Concluded xs t ∨ ∃ k' x', Smooth xs x' k' t ∧ Lower (rank xs t) (rank xs s) := by
  obtain ⟨-, ⟨hrest, hc⟩, full⟩ := h.at_stage hone
  obtain ⟨data, hdata, rfl⟩ := hc c rfl
  have mem : (⟨.write side k rest, some (.success data [])⟩ : Outstanding) ∈ s.outstanding :=
    hone ▸ List.mem_singleton_self _
  have current : k + 1 = s.messages.length := (reachable_chain h.reachable).current _ mem
  have resumed := hr
  simp only [Socket.resume] at resumed
  split at resumed
  · rcases Socket.writeHandler_cases resumed with ⟨hst, -⟩ | ⟨-, -, ⟨rfl, ht⟩ | ⟨rfl, ht⟩⟩
    · cases h.running.symm.trans hst
    · have next : t.outstanding = [⟨.readHeader .client (k + 1), none⟩] := by
        simp [ht, Socket.getMessageFromClient, current]
      have log : t.trace = .start (.readHeader .client (k + 1)) ::
          .finish (.write .client k (rest.drop data.length)) none s.now :: s.trace := by
        simp [ht, Socket.getMessageFromClient, current]
      rcases h.nextRound hone hr (by rw [ht]; rfl) next log with done | ⟨x', smooth, less⟩
      · exact Or.inl done
      · exact Or.inr ⟨k + 1, x', smooth, less⟩
    · have still : Still s t := ⟨by rw [ht]; rfl, [.start (.readHeader .server k),
        .finish (.write .server k (rest.drop data.length)) none s.now], by rw [ht]; rfl, by simp [Action.still]⟩
      have next : t.outstanding = [⟨.readHeader .server k, none⟩] := by rw [ht]; rfl
      have unheard : takenSince .server k s.trace = [] := by
        have unread : s.message .server k = [] := (within_fitting (h.within .server)).fresh _ mem rfl
        rw [h.stored hone .server, unread]
        rfl
      refine Or.inr ⟨k, x, h.carry hone hr still next rfl ⟨?_, fun c hc => by cases hc⟩ fun side hside => ?_, ?_⟩
      · rw [still.since_eq, unheard]
        exact Spoken.uncut_nil _
      · rw [still.since_eq]
        exact full side (by cases side <;> exact hside)
      · exact lower_of_phase hone next rfl (by simp [Op.phase])
  · rename_i hmore
    have ht := (Except.ok.inj resumed).symm
    have still : Still s t := .quiet (by rw [ht]; rfl) (by rw [ht]; rfl)
    refine Or.inr ⟨k, x, h.carryOn (.write side k (rest.drop data.length)) hone hr still (by rw [ht]; rfl) rfl ?_
      ⟨hmore, fun c hc => by cases hc⟩ ?_ fun left => ?_⟩
    · cases side <;> rfl
    · intro side'
      cases side <;> cases side' <;> rfl
    · have hlen : 0 < data.length ∧ 0 < rest.length := ⟨List.length_pos_iff.mpr hdata, List.length_pos_iff.mpr hrest⟩
      simp only [Outstanding.ahead, List.length_drop, Option.isSome_none, Option.isSome_some, ↓reduceIte,
        Bool.false_eq_true]
      omega

theorem dispatch (h : Smooth xs x k s) (hone : s.outstanding = [⟨op, some c⟩])
    (hr : { s with outstanding := [] }.resume op c = .ok t) :
    Concluded xs t ∨ ∃ k' x', Smooth xs x' k' t ∧ Lower (rank xs t) (rank xs s) := by
  obtain ⟨hk, -⟩ := h.at_stage hone
  cases op with
  | readHeader side k' =>
    obtain rfl : k' = k := hk
    exact Or.inr ⟨k', x, h.readHeader hone hr⟩
  | readBody side k' limit httpBody =>
    obtain rfl : k' = k := hk
    exact Or.inr ⟨k', x, h.readBody hone hr⟩
  | resolve k' host =>
    obtain rfl : k' = k := hk
    exact Or.inr ⟨k', x, h.resolve hone hr⟩
  | connect k' entries =>
    obtain rfl : k' = k := hk
    exact Or.inr ⟨k', x, h.connect hone hr⟩
  | write side k' rest =>
    obtain rfl : k' = k := hk
    exact h.write hone hr

end Smooth

end HttpProxy
