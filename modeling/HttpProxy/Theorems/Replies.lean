import HttpProxy.Theorems.Chunks
import HttpProxy.Theorems.Faults
import HttpProxy.Theorems.Requests
import Mathlib.Algebra.GroupWithZero.Nat
import Mathlib.Order.RelClasses

/-! The stream of a server is the answer to the request of the round: interim responses, then the final one. In a
    session whose reads of the server agree with the answers, the reply of each round is the answer, and the
    session goes on to the next request. -/

namespace HttpProxy
open Search Log

variable {requests : Nat → Http.Request} {answers : ∀ k, Http.Answer (requests k)} {s t : Socket} {k n : Nat}

/-- The answers that the servers send, one in each round. -/
def Script.replies (answers : ∀ k, Http.Answer (requests k)) : Script where
  side := .server
  len k := (answers k).render.length
  host _ := none

/-- The round that a log is in. -/
def round : List Action → Option Nat
  | [] => none
  | .start (.readHeader .client k) :: _ => some k
  | _ :: log => round log

/-- What is taken off the server's socket continues the answer of the round. -/
def Answering (answers : ∀ k, Http.Answer (requests k)) : Action → List Action → Prop
  | .taken .server data, older => ∀ k ∈ round older, takenSince .server k older ++ data <+: (answers k).render
  | _, _ => True

instance : ∀ (a : Action) (older : List Action), Decidable (Answering answers a older)
  | .taken .server _, _ => inferInstanceAs (Decidable (∀ k ∈ round _, _))
  | .taken .client _, _ | .start _, _ | .wait, _ | .finish _ _ _, _ | .sent _ _ _, _ | .resolved _ _, _
  | .host _ _ _, _ | .timedOut _, _ | .stop, _ => .isTrue trivial

theorem Http.Answer.headerEnd_in_render {r : Http.Request} (a : Http.Answer r) :
    (find? headerEnd a.render).isSome = true := by
  obtain ⟨n, hn, -⟩ := a.final.find?_head a.final.payload.render
  have final : headerEnd <:+: a.final.render := find?_isSome_iff.mp (Option.isSome_iff_exists.mpr ⟨n, hn⟩)
  exact find?_isSome_iff.mpr (final.trans (List.suffix_append _ _).isInfix)

theorem round_cons {a : Action} (h : ∀ k, a ≠ .start (.readHeader .client k)) (log : List Action) :
    round (a :: log) = round log := by
  cases a with
  | start op =>
    cases op with
    | readHeader side k =>
      cases side
      · exact absurd rfl (h k)
      · rfl
    | _ => rfl
  | _ => rfl

/-- A log between the start of round `k` and that of the next one is in round `k`. -/
theorem round_of_milestones : ∀ {log : List Action} {n : Nat}, milestones log = (List.range n).reverse → 5 * k < n →
    n ≤ 5 * k + 5 → round log = some k
  | [], n, hn, hlt, _ => by
    have h0 : n = 0 := by simpa [milestones] using (congrArg List.length hn).symm
    omega
  | a :: log, n, hn, hlt, hle => by
    by_cases hstart : ∃ k', a = .start (.readHeader .client k')
    · obtain ⟨k', rfl⟩ := hstart
      obtain ⟨hn', -⟩ := milestones_cons_inv (m := 5 * k') hn rfl
      have hk : k' = k := by omega
      rw [round, hk]
    · rw [round_cons fun k' hk => hstart ⟨k', hk⟩]
      cases hm : milestone a with
      | none =>
        rw [milestones_cons_none hm] at hn
        exact round_of_milestones hn hlt hle
      | some m =>
        obtain ⟨hn', before⟩ := milestones_cons_inv hn hm
        -- The first place of a round is the start of its request.
        have hne : m ≠ 5 * k := by
          intro he
          unfold milestone at hm
          split at hm <;> simp only [Option.some.injEq, reduceCtorEq] at hm <;> first | omega | skip
          exact hstart ⟨_, rfl⟩
        exact round_of_milestones before (by omega) (by omega)

theorem answer_begins : ∀ {log : List Action}, Always (Answering answers) log → round log = some k →
    takenSince .server k log <+: (answers k).render
  | [], _, h => by cases h
  | a :: log, h, hr => by
    have ih : round log = some k → takenSince .server k log <+: (answers k).render := answer_begins h.2
    cases a with
    | taken side data =>
      cases side
      · exact ih hr
      · exact h.1 k hr
    | start op =>
      cases op with
      | readHeader side k' =>
        cases side
        · rw [round, Option.some.injEq] at hr
          rw [takenSince, if_pos hr]
          exact List.nil_prefix
        · exact ih hr
      | _ => exact ih hr
    | _ => exact ih hr

/-- A session is in the round of its outstanding operation. -/
theorem Chain.round (c : Chain s) {o : Outstanding} (ho : o ∈ s.outstanding) : round s.trace = some o.op.msgId := by
  obtain ⟨n, hn, hreached⟩ := c.schedule
  have hplaces : o.op.reached = n := hreached o ho
  have bounds : 5 * o.op.msgId < o.op.reached ∧ o.op.reached ≤ 5 * o.op.msgId + 5 := by
    obtain ⟨op, q⟩ := o
    cases op with
    | readHeader side k | readBody side k | write side k => cases side <;> simp only [Op.msgId, Op.reached] <;> omega
    | resolve | connect =>
      simp only [Op.msgId, Op.reached]
      omega
  rw [hplaces] at bounds
  exact round_of_milestones hn bounds.1 bounds.2

/-! ### A session that agrees with the answers -/

/-- A write to the client starts with the answer of its round. -/
theorem answer_written (h : session.Within (Framed (.replies answers)) s) (hs : Always (Answering answers) s.trace)
    {newer older : List Action} {msg : Bytes} (hl : s.trace = newer ++ .start (.write .client k msg) :: older) :
    msg = (answers k).render := by
  obtain ⟨n, hn, -⟩ := (reachable_chain h.reachable).schedule
  have before : milestones older = (List.range (5 * k + 3)).reverse := milestones_before hn hl rfl
  obtain ⟨hmsg, -⟩ := (hl ▸ (reachable_transparent h.reachable).writes).split
  have fed : Always (Answering answers) (.start (.write .client k msg) :: older) := Always.of_append (hl ▸ hs)
  have current : round older = some k := round_of_milestones before (by omega) (by omega)
  have hpre := answer_begins fed.2 current
  obtain ⟨-, hlen⟩ := (within_fitting h).log (.start (.write .client k msg)) (by rw [hl]; simp) rfl
  rw [hmsg] at hlen ⊢
  exact hpre.eq_of_length hlen

/-- A read of the server that waits has taken a part of the answer, and not all of it. -/
theorem answer_awaited (h : session.Within (Framed (.replies answers)) s) (hs : Always (Answering answers) s.trace)
    {op : Op} (ho : ⟨op, none⟩ ∈ s.outstanding) (hop : op.reads .server = true) :
    takenSince .server op.msgId s.trace <+: (answers op.msgId).render ∧
      takenSince .server op.msgId s.trace ≠ (answers op.msgId).render := by
  refine ⟨answer_begins hs ((reachable_chain h.reachable).round ho), fun he => ?_⟩
  exact (within_fitting h).read_short (reachable_transparent h.reachable) ho hop rfl
    (answers op.msgId).headerEnd_in_render (he ▸ List.prefix_refl _)

/-! ### The course of a reply -/

/-- What carries a reply on: the server sends more of its answer, the client takes more of the reply, and queued
    completions are run. Meanwhile a wait on the timer that was aborted may begin again, and time may pass up to the
    expiry. -/
def Carrying (answers : ∀ k, Http.Answer (requests k)) (s : Socket) : Event → Prop
  | .dispatch _ => True
  | .io i c => ∃ op data, s.outstanding[i]? = some ⟨op, none⟩ ∧ c = .success data [] ∧ (op.reads .server = true →
    takenSince .server op.msgId s.trace ++ data <+: (answers op.msgId).render)
  | .wait => s.timer.queue.head? = some (some .operationAborted)
  | .elapse d => 0 < d ∧ s.now + d < s.timer.expiry
  | _ => False

/-- What is outstanding in round `k` while the reply is read and written. -/
def Outstanding.Relaying (k : Nat) (o : Outstanding) : Prop :=
  o.op.msgId = k ∧
    ((o.op.reads .server = true ∧ ∀ c ∈ o.completion, ∃ data, c = .success data []) ∨
      ∃ rest, o.op = .write .client k rest ∧ rest ≠ [] ∧ ∀ c ∈ o.completion, ∃ data, data ≠ [] ∧ c = .success data [])

/-- A bound on the events until the reply is written, where `left` of `whole` bytes are still to be read. -/
def Outstanding.effort (left whole : Nat) : Outstanding → Nat
  | ⟨.readHeader _ _, c⟩ => 2 * whole + 2 + 3 * left + if c.isSome then 5 else 4
  | ⟨.readBody _ _ _ _, c⟩ => 2 * whole + 2 + 3 * left + if c.isSome then 2 else 1
  | ⟨.write _ _ rest, c⟩ => 2 * rest.length + if c.isSome then 0 else 1
  | _ => 0

/-- The bytes of the answer that are still to be read. -/
def unread (answers : ∀ k, Http.Answer (requests k)) (k : Nat) (s : Socket) : Nat :=
  (answers k).render.length - (takenSince .server k s.trace).length

def effort (answers : ∀ k, Http.Answer (requests k)) (k : Nat) (s : Socket) : Nat :=
  (s.outstanding.map (·.effort (unread answers k s) (answers k).render.length)).sum

/-- How often an aborted wait can begin again, and time pass, before the reply must go on. -/
def spare (s : Socket) : Nat := s.timer.queue.length + (s.timer.expiry - s.now)

/-- A session that relays the answer of round `k`. -/
structure Relaying (answers : ∀ k, Http.Answer (requests k)) (k : Nat) (s : Socket) : Prop where
  within : session.Within (Framed (.replies answers)) s
  fed : Always (Answering answers) s.trace
  running : s.stopped = false
  connected : s.clientConnected = true
  stage : ∃ o, s.outstanding = [o] ∧ o.Relaying k

/-- What a completed read of the reply leads to: the reply is written, or more of it is read. -/
inductive Onward (k : Nat) (from_ : Outstanding) (s t : Socket) : Prop
  | write {msg : Bytes} {older : List Action} : t.trace = .start (.write .client k msg) :: older →
      t.outstanding = [⟨.write .client k msg, if msg = [] then some (.success [] []) else none⟩] → Onward k from_ s t
  | read {o : Outstanding} : t.outstanding = [o] → o.Relaying k →
      takenSince .server k t.trace = takenSince .server k s.trace →
      (∀ left whole, o.effort left whole < from_.effort left whole) → Onward k from_ s t

namespace Socket

theorem onward_callback {from_ : Outstanding} {s' : Socket} (idle : s'.outstanding = []) :
    Onward k from_ s (s'.callback .server k) :=
  .write rfl (by simp [callback, sendMessageToClient, idle])

theorem resume_reads_server {op : Op} {data : Bytes} (hop : op.reads .server = true) (idle : s.outstanding = [])
    (running : s.stopped = false) (fed : Always (Answering answers) s.trace)
    (h : s.resume op (.success data []) = .ok t) :
    t.stopped = false ∧ t.clientConnected = s.clientConnected ∧ Always (Answering answers) t.trace ∧
      Onward op.msgId ⟨op, some (.success data [])⟩ s t := by
  cases op with
  | readHeader side k =>
    have hs : side = .server := by simpa [Op.reads] using hop
    subst hs
    show _ ∧ _ ∧ _ ∧ Onward k _ s t
    simp only [resume] at h
    split at h
    · rename_i pos hpos
      rcases serverHeaderHandler_cases (show serverHeaderHandler _ k none _ = _ from h) with
        ⟨-, hst | hec | hec⟩ | ⟨-, -, hec⟩ | ⟨-, -, hr⟩
      · have hst : s.stopped = true := hst
        rw [running] at hst
        cases hst
      · cases hec
      · cases hec
      · cases hec
      · have hbranch := readBody_branch (s := (s.append .server k data).finish (.readHeader .server k) none) running hr
        split at hbranch
        · rw [hbranch]
          exact ⟨running, rfl, ⟨trivial, trivial, fed⟩, onward_callback idle⟩
        · obtain ⟨n, -, limit, -, rfl⟩ := hbranch
          refine ⟨running, rfl, ⟨trivial, trivial, fed⟩, .read (o := ⟨.readBody .server k (some limit) [], _⟩)
            (by simp [idle]; rfl) ⟨rfl, Or.inl ⟨rfl, fun c hc => ?_⟩⟩ rfl fun left whole => ?_⟩
          · split at hc
            · exact ⟨[], (Option.some.inj hc).symm⟩
            · cases hc
          · simp only [Outstanding.effort, Option.isSome_some, ↓reduceIte]
            split <;> simp
        · rcases hbranch with ⟨-, rfl⟩ | ⟨-, rfl⟩
          · exact ⟨running, rfl, ⟨trivial, trivial, fed⟩, onward_callback idle⟩
          · exact ⟨running, rfl, ⟨trivial, trivial, fed⟩, .read (o := ⟨.readBody .server k none [], none⟩) (by simp [idle])
              ⟨rfl, Or.inl ⟨rfl, fun _ hc => by cases hc⟩⟩ rfl fun left whole => by simp [Outstanding.effort]⟩
    · rw [← Except.ok.inj h]
      exact ⟨running, rfl, fed, .read (o := ⟨.readHeader .server k, none⟩) (by simp [idle]) ⟨rfl, Or.inl ⟨rfl, fun _ hc => by cases hc⟩⟩
        rfl fun left whole => by simp [Outstanding.effort]⟩
  | readBody side k limit httpBody =>
    have hs : side = .server := by simpa [Op.reads] using hop
    subst hs
    show _ ∧ _ ∧ _ ∧ Onward k _ s t
    simp only [resume] at h
    split at h
    · rcases sharedHandler_cases h with ⟨-, rfl⟩ | ⟨hec, -⟩
      · exact ⟨running, rfl, ⟨trivial, trivial, fed⟩, onward_callback idle⟩
      · rcases hec with hec | hec <;> cases hec
    · rw [← Except.ok.inj h]
      exact ⟨running, rfl, fed, .read (o := ⟨.readBody .server k limit (httpBody ++ data), none⟩) (by simp [idle])
        ⟨rfl, Or.inl ⟨rfl, fun _ hc => by cases hc⟩⟩ rfl fun left whole => by simp [Outstanding.effort]⟩
  | resolve | connect | write => cases hop

/-- A completed part of the write to the client: more of it is written, or the next request is read. -/
theorem resume_writes_client {rest data : Bytes} (idle : s.outstanding = []) (running : s.stopped = false)
    (h : s.resume (.write .client k rest) (.success data []) = .ok t) :
    t.outstanding = [⟨.readHeader .client s.messages.length, none⟩] ∨
      rest.drop data.length ≠ [] ∧ t = s.again (.write .client k (rest.drop data.length)) := by
  simp only [resume] at h
  split at h
  · rcases writeHandler_cases h with ⟨hst, -⟩ | ⟨-, -, ⟨-, rfl⟩ | ⟨hs, -⟩⟩
    · have hst : s.stopped = true := hst
      rw [running] at hst
      cases hst
    · left
      simp [getMessageFromClient, idle]
    · cases hs
  · rename_i hrest
    exact Or.inr ⟨hrest, (Except.ok.inj h).symm⟩

end Socket

theorem BodyEnds.measured {len : Nat} {plus header : Bytes} (h : BodyEnds len plus header) : Measured header := by
  intro hbody
  unfold BodyEnds at h
  simp only [hbody] at h
  cases hn : parseField header (ascii "content-length") >>= stoul with
  | ok n =>
    obtain ⟨value, hv, hn⟩ := bind_eq_ok.mp hn
    exact ⟨value, n, hv, hn⟩
  | error fault =>
    simp only [hn] at h

namespace Relaying
variable {op : Op} {c : Completion}

/-- A queued completion ends a step of the reply's read, or of its write. -/
theorem queued (h : Relaying answers k s) (hone : s.outstanding = [⟨op, some c⟩]) :
    op.msgId = k ∧ ((op.reads .server = true ∧ ∃ data, c = .success data []) ∨
      ∃ rest data, op = .write .client k rest ∧ data ≠ [] ∧ rest ≠ [] ∧ c = .success data []) := by
  obtain ⟨o, ho, hk, stage⟩ := h.stage
  obtain rfl : ⟨op, some c⟩ = o := List.singleton_inj.mp (hone.symm.trans ho)
  refine ⟨hk, ?_⟩
  rcases stage with ⟨hop, hc⟩ | ⟨rest, rfl, hrest, hc⟩
  · exact Or.inl ⟨hop, hc c rfl⟩
  · obtain ⟨data, hdata, hc⟩ := hc c rfl
    exact Or.inr ⟨rest, data, rfl, hdata, hrest, hc⟩

/-- The handler of a completion that agrees with the answer returns. -/
theorem contained (h : Relaying answers k s) (hone : s.outstanding = [⟨op, some c⟩])
    (framed : Framed (.replies answers) s (.dispatch 0)) : op.Contained s c := by
  have framed : op.Framed (.replies answers) s c := framed ⟨op, some c⟩ (by rw [hone]; rfl) c rfl
  have current : op.msgId + 1 = s.messages.length :=
    (reachable_chain h.within.reachable).current _ (hone ▸ List.mem_singleton_self _)
  obtain ⟨-, ⟨hop, data, rfl⟩ | ⟨rest, data, rfl, -, -, rfl⟩⟩ := h.queued hone
  · cases op with
    | readHeader side k' =>
      have hs : side = .server := by simpa [Op.reads] using hop
      subst hs
      intro pos hpos
      have text : (s.append .server k' data).message .server k' = s.message .server k' ++ data :=
        Socket.message_append (show k' < s.messages.length by simp only [Op.msgId] at current; omega) data
      rw [text] at hpos ⊢
      obtain ⟨-, ends, -⟩ := framed rfl h.running pos hpos fun hs => by cases hs
      exact Or.inr ⟨h.connected, ends.measured⟩
    | readBody => trivial
    | resolve | connect | write => cases hop
  · trivial

theorem dispatch (h : Relaying answers k s) (hone : s.outstanding = [⟨op, some c⟩])
    (framed : Framed (.replies answers) s (.dispatch 0)) (hr : { s with outstanding := [] }.resume op c = .ok t) :
    t.outstanding = [⟨.readHeader .client (k + 1), none⟩] ∨ Relaying answers k t ∧ effort answers k t < effort answers k s := by
  have step : session.Step s (.dispatch 0) t := by
    rw [session_step]
    simp [Socket.step, hone, hr]
  have within : session.Within (Framed (.replies answers)) t := .step _ h.within framed step
  have current : op.msgId + 1 = s.messages.length :=
    (reachable_chain h.within.reachable).current _ (hone ▸ List.mem_singleton_self _)
  obtain ⟨hk, ⟨hop, data, rfl⟩ | ⟨rest, data, rfl, hdata, hrest, rfl⟩⟩ := h.queued hone
  · obtain ⟨running, connected, fed, onward⟩ :=
      Socket.resume_reads_server (s := { s with outstanding := [] }) hop rfl h.running h.fed hr
    rw [hk] at onward
    right
    cases onward with
    | write htrace hout =>
      -- What is written is the whole answer.
      have hmsg := answer_written within fed (htrace.trans (List.nil_append _).symm)
      have hne : (answers k).render ≠ [] := fun hnil => by
        have hend := (answers k).headerEnd_in_render
        rw [hnil] at hend
        cases hend
      rw [hmsg, if_neg hne] at hout
      refine ⟨⟨within, fed, running, connected.trans h.connected, _, hout, rfl, Or.inr ⟨_, rfl, hne, fun _ hc => by cases hc⟩⟩, ?_⟩
      have less : 2 * (answers k).render.length + 1 <
          Outstanding.effort (unread answers k s) (answers k).render.length ⟨op, some (.success data [])⟩ := by
        cases op with
        | readHeader | readBody =>
          simp only [Outstanding.effort, Option.isSome_some, ↓reduceIte]
          omega
        | resolve | connect | write => cases hop
      simpa [effort, hone, hout, Outstanding.effort] using less
    | @read o hout stage same less =>
      refine ⟨⟨within, fed, running, connected.trans h.connected, o, hout, stage⟩, ?_⟩
      have left : unread answers k t = unread answers k s := congrArg (_ - List.length ·) same
      simpa [effort, hone, hout, left] using less (unread answers k s) (answers k).render.length
  · rcases Socket.resume_writes_client (s := { s with outstanding := [] }) rfl h.running hr with hout | ⟨hne, rfl⟩
    · left
      rw [hout, show s.messages.length = k + 1 from current.symm]
    · right
      refine ⟨⟨within, h.fed, h.running, h.connected, _, rfl, rfl, Or.inr ⟨_, rfl, hne, fun _ hc => by cases hc⟩⟩, ?_⟩
      have hlen : 0 < data.length ∧ 0 < rest.length := ⟨List.length_pos_iff.mpr hdata, List.length_pos_iff.mpr hrest⟩
      simp [effort, hone, Outstanding.effort]
      omega

/-- A read that takes bytes leaves less to be read. -/
theorem effort_read (hop : op.reads .server = true) {left left' whole : Nat} (hlt : left' < left) (c : Completion) :
    Outstanding.effort left' whole ⟨op, some c⟩ < Outstanding.effort left whole ⟨op, none⟩ := by
  cases op with
  | readHeader | readBody =>
    simp only [Outstanding.effort, Option.isSome_some, Option.isSome_none, ↓reduceIte, Bool.false_eq_true]
    omega
  | resolve | connect | write => cases hop

/-- The server sends more of its answer, or the client takes more of the reply. -/
theorem io {data : Bytes} (h : Relaying answers k s) (hone : s.outstanding = [⟨op, none⟩])
    (allowed : op.allows (.success data []) = true)
    (feed : op.reads .server = true → takenSince .server op.msgId s.trace ++ data <+: (answers op.msgId).render)
    (hs : session.Step s (.io 0 (.success data []))
      { s with outstanding := [⟨op, some (.success data [])⟩], trace := op.shows (.success data []) ++ s.trace }) :
    Relaying answers k
        { s with outstanding := [⟨op, some (.success data [])⟩], trace := op.shows (.success data []) ++ s.trace } ∧
      effort answers k
        { s with outstanding := [⟨op, some (.success data [])⟩], trace := op.shows (.success data []) ++ s.trace } <
          effort answers k s := by
  have within : session.Within (Framed (.replies answers)) _ := .step (.io 0 _) h.within trivial hs
  have inRound : round s.trace = some op.msgId :=
    (reachable_chain h.within.reachable).round (o := ⟨op, none⟩) (hone ▸ List.mem_singleton_self _)
  obtain ⟨o, ho, hk, stage⟩ := h.stage
  obtain rfl : ⟨op, none⟩ = o := List.singleton_inj.mp (hone.symm.trans ho)
  have hk : op.msgId = k := hk
  rcases stage with ⟨hop, -⟩ | ⟨rest, rfl, hrest, -⟩
  · have shown : op.shows (.success data []) = [.taken .server data] ∧ data ≠ [] := by
      cases op with
      | readHeader side k' | readBody side k' =>
        have hs : side = .server := by simpa [Op.reads] using hop
        subst hs
        simp only [Op.allows, Bool.and_eq_true, decide_eq_true_eq] at allowed
        exact ⟨rfl, by tauto⟩
      | resolve | connect | write => cases hop
    obtain ⟨hshows, hdata⟩ := shown
    have feed := feed hop
    rw [hk] at feed inRound
    rw [hshows] at within ⊢
    refine ⟨⟨within, ⟨fun k' hk' => ?_, h.fed⟩, h.running, h.connected, _, rfl, hk, Or.inl ⟨hop, fun c hc => ?_⟩⟩, ?_⟩
    · obtain rfl : k = k' := Option.some.inj (inRound.symm.trans hk')
      exact feed
    · exact ⟨data, (Option.some.inj hc).symm⟩
    · have hle := feed.length_le
      have hlen := List.length_pos_iff.mpr hdata
      rw [List.length_append] at hle
      have left : unread answers k
          { s with outstanding := [⟨op, some (.success data [])⟩], trace := [.taken .server data] ++ s.trace } <
          unread answers k s := by
        simp only [unread, List.singleton_append, takenSince, ↓reduceIte, List.length_append]
        omega
      simpa [effort, hone] using effort_read hop left (.success data [])
  · have hdata : data ≠ [] := by
      simp only [Op.allows, Bool.and_eq_true, decide_eq_true_eq] at allowed
      exact allowed.1.1
    refine ⟨⟨within, ⟨trivial, h.fed⟩, h.running, h.connected, _, rfl, hk, Or.inr ⟨rest, rfl, hrest, fun c hc => ?_⟩⟩, ?_⟩
    · exact ⟨data, hdata, (Option.some.inj hc).symm⟩
    · simp [effort, hone, Outstanding.effort]

/-- A wait that begins again, or time that passes, leaves the reply where it is. -/
theorem tick (h : Relaying answers k s) {e : Event} (hs : session.Step s e t)
    (framed : Framed (.replies answers) s e) (ho : t.outstanding = s.outstanding) (running : t.stopped = s.stopped)
    (connected : t.clientConnected = s.clientConnected) (ht : t.trace = s.trace ∨ t.trace = .wait :: s.trace) :
    Relaying answers k t ∧ effort answers k t = effort answers k s := by
  have within : session.Within (Framed (.replies answers)) t := .step e h.within framed hs
  have fed : Always (Answering answers) t.trace := by
    rcases ht with ht | ht <;> rw [ht]
    · exact h.fed
    · exact ⟨trivial, h.fed⟩
  have left : unread answers k t = unread answers k s := by
    rcases ht with ht | ht <;> rw [unread, ht] <;> rfl
  obtain ⟨o, hone, stage⟩ := h.stage
  refine ⟨⟨within, fed, running.trans h.running, connected.trans h.connected, o, ho.trans hone, stage⟩, ?_⟩
  rw [effort, effort, ho, left]

/-- While the reply is not written, something can happen. -/
theorem enabled (h : Relaying answers k s) : ∃ e out, Carrying answers s e ∧ session.step s e = some out := by
  obtain ⟨⟨op, q⟩, hone, -, stage⟩ := h.stage
  cases q with
  | some c => exact ⟨.dispatch 0, { s with outstanding := [] }.resume op c, trivial, by
      rw [session_step_eq]
      simp [Socket.step, hone]⟩
  | none =>
    have possible : ∀ data, op.allows (.success data []) = true → (op.reads .server = true →
        takenSince .server op.msgId s.trace ++ data <+: (answers op.msgId).render) →
        ∃ e out, Carrying answers s e ∧ session.step s e = some out := by
      intro data allowed feed
      have step : ∃ out, s.step (.io 0 (.success data [])) = some out := by simp [Socket.step, hone, allowed]
      obtain ⟨out, hout⟩ := step
      exact ⟨.io 0 (.success data []), out, ⟨op, data, by rw [hone]; rfl, rfl, feed⟩, hout⟩
    rcases stage with ⟨hop, -⟩ | ⟨rest, rfl, hrest, -⟩
    · -- The server can send the next byte of an answer that is not complete.
      have mem : (⟨op, none⟩ : Outstanding) ∈ s.outstanding := hone ▸ List.mem_singleton_self _
      obtain ⟨⟨more, hmore⟩, hne⟩ := answer_awaited h.within h.fed mem hop
      cases more with
      | nil => exact absurd (by simpa using hmore) hne
      | cons b more =>
        refine possible [b] ?_ fun _ => ⟨more, by simpa using hmore⟩
        have fits := (within_fitting h.within).fits _ mem
        cases op with
        | readHeader => rfl
        | readBody side k' limit httpBody =>
          have hs : side = .server := by simpa [Op.reads] using hop
          cases limit with
          | none => rfl
          | some n =>
            obtain ⟨-, -, -, hlt⟩ := fits hs
            have hlt : httpBody.length + 1 ≤ n := hlt rfl
            simp only [Op.allows, Option.all_some, List.length_singleton, decide_eq_true hlt]
            rfl
        | resolve | connect | write => cases hop
    · exact possible rest (by simp [Op.allows, hrest]) fun hop => by cases hop

/-- The reply comes to its end, or to a completion that does not agree with the answer. -/
theorem attains (h : Relaying answers k s) : session.Attains (Carrying answers) (fun t =>
    t.outstanding = [⟨.readHeader .client (k + 1), none⟩] ∨ ¬Framed (.replies answers) t (.dispatch 0)) s := by
  refine .of_wellFounded (I := Relaying answers k) (WellFounded.prod_lex Nat.lt_wfRel.wf Nat.lt_wfRel.wf)
    (fun s => (effort answers k s, spare s)) h (fun s h _ => ?_) (fun s e h hg he hf => ?_) fun s e t h hg he hs => ?_
  · exact h.enabled
  · have framed : Framed (.replies answers) s (.dispatch 0) := by_contra fun hn => hg (Or.inr hn)
    have single := (reachable_chain h.within.reachable).single
    obtain ⟨fault, hf⟩ := hf
    cases e with
    | dispatch i =>
      obtain ⟨op, c, hi, hr⟩ := Socket.step_dispatch hf
      obtain ⟨hone, rfl⟩ := Move.eq_singleton single hi
      obtain ⟨t, ht⟩ := (Socket.resume_ok_iff (s := { s with outstanding := [] })).mpr (h.contained hone framed)
      rw [hone] at hr
      cases hr.trans ht
    | io i c =>
      obtain ⟨op, -, -, hr⟩ := Socket.step_io hf
      cases hr
    | wait =>
      obtain ⟨ec, queue, -, hr⟩ := Socket.step_wait hf
      cases hr
    | elapse d => cases hf
    | expire | close | disconnect => exact he.elim
  · have framed : Framed (.replies answers) s (.dispatch 0) := by_contra fun hn => hg (Or.inr hn)
    cases (reachable_chain h.within.reachable).move hs with
    | @io op c hone allowed =>
      obtain ⟨op', data, hi, rfl, feed⟩ := he
      obtain rfl : op = op' := by simpa [hone] using hi
      obtain ⟨relaying, less⟩ := h.io hone allowed feed hs
      exact Or.inr ⟨relaying, Prod.Lex.left _ _ less⟩
    | dispatch hone hr =>
      rcases h.dispatch hone framed hr with hnext | ⟨relaying, less⟩
      · exact Or.inl (Or.inl hnext)
      · exact Or.inr ⟨relaying, Prod.Lex.left _ _ less⟩
    | @wait ec queue hq =>
      obtain rfl : ec = some .operationAborted := by simpa [Carrying, hq] using he
      have again : ({ s with timer := { s.timer with queue := queue } } : Socket).handleWait (some .operationAborted) =
          ({ s with timer := { s.timer with queue := queue } } : Socket).asyncWait := by
        simp [Socket.handleWait, h.running]
      rw [again] at hs ⊢
      obtain ⟨relaying, same⟩ := h.tick hs trivial rfl rfl rfl (Or.inr rfl)
      refine Or.inr ⟨relaying, same ▸ Prod.Lex.right _ ?_⟩
      show queue.length + (s.timer.expiry - s.now) < s.timer.queue.length + (s.timer.expiry - s.now)
      rw [hq, List.length_cons]
      omega
    | elapse d =>
      obtain ⟨hd, early⟩ := he
      obtain ⟨relaying, same⟩ := h.tick hs trivial rfl rfl rfl (Or.inl rfl)
      refine Or.inr ⟨relaying, same ▸ Prod.Lex.right _ ?_⟩
      show s.timer.queue.length + (s.timer.expiry - (s.now + d)) < s.timer.queue.length + (s.timer.expiry - s.now)
      omega
    | close | expire | disconnect => exact he.elim

end Relaying

/-- In a run whose reads of the server all agree with the answers it sends, the write of reply `k` to the client
    starts with exactly answer `k`; a read of the server goes on only as long as its answer is not complete; and
    from the read of the reply on, a session whose client stays comes to the read of request `k + 1`, or to a
    completion that does not agree with the answer. -/
theorem reply_framing {requests : Nat → Http.Request} {answers : ∀ k, Http.Answer (requests k)} {s : Socket}
    (h : session.Within (Framed (.replies answers)) s) (hs : Always (Answering answers) s.trace) :
    (∀ newer older k msg, s.trace = newer ++ .start (.write .client k msg) :: older → msg = (answers k).render) ∧
    (∀ op, ⟨op, none⟩ ∈ s.outstanding → op.reads .server = true →
      takenSince .server op.msgId s.trace <+: (answers op.msgId).render ∧
        takenSince .server op.msgId s.trace ≠ (answers op.msgId).render) ∧
    ∀ k, s.stopped = false → s.clientConnected = true → s.outstanding = [⟨.readHeader .server k, none⟩] →
      session.Attains (Carrying answers) (fun t => t.outstanding = [⟨.readHeader .client (k + 1), none⟩] ∨
        ¬Framed (.replies answers) t (.dispatch 0)) s := by
  refine ⟨fun newer older k msg hl => answer_written h hs hl, fun op ho hop => answer_awaited h hs ho hop,
    fun k running connected hone => ?_⟩
  have relaying : Relaying answers k s := ⟨h, hs, running, connected, _, hone, rfl, Or.inl ⟨rfl, nofun⟩⟩
  exact relaying.attains

/-! ### Sample answers -/

def chunkedCoding : Http.Field := .plain (ascii "Transfer-Encoding") (ascii "chunked") (by decide +kernel)

def threeBytes : Http.Chunk := ⟨ascii "3", [], ascii "abc", by decide +kernel, rfl, Http.isExtension_nil, nofun⟩

/-- An answer with a chunked body. -/
def chunkedAnswer : Http.Answer samplePost where
  interims := []
  final := {
    status := 200
    reason := ascii "OK"
    fields := [chunkedCoding]
    payload := .chunked [threeBytes] plainLast
    final := by simp
    reason_text := by decide +kernel
    bodiless := nofun
    framed := fun _ => ⟨nofun, rfl, ascii "chunked", rfl, [], by decide +kernel, nofun⟩ }

/-- The events of a round up to the read of the reply. -/
def requestSent : List Event :=
  [.io 0 (.success samplePost.render []), .dispatch 0, .dispatch 0, .io 0 (.success [] [⟨1, 80⟩]), .dispatch 0,
    .io 0 (.success [] []), .dispatch 0, .io 0 (.success samplePost.render []), .dispatch 0]

/-- The chunked answer comes in two segments, the second one its last chunk. -/
def chunkedReply : List Event :=
  requestSent ++ [.io 0 (.success (chunkedAnswer.render.take 55) []), .dispatch 0,
    .io 0 (.success (chunkedAnswer.render.drop 55) []), .dispatch 0]

def afterRequestSent : Socket := (session.exec (Socket.new 0).start requestSent).getD (Socket.new 0).start

def afterChunkedReply : Socket := (session.exec (Socket.new 0).start chunkedReply).getD (Socket.new 0).start

/-- An answer of one interim response and a final one without content. -/
def continuedAnswer : Http.Answer samplePost where
  interims := [{
    status := 100
    reason := ascii "Continue"
    fields := []
    informational := by simp
    reason_text := by decide +kernel
    framed := ⟨rfl, rfl⟩ }]
  final := {
    status := 204
    reason := ascii "No Content"
    fields := []
    payload := .none
    final := by simp
    reason_text := by decide +kernel
    bodiless := fun _ => rfl
    framed := nofun }

theorem reply_framing_sample :
    (∀ newer older msg, afterChunkedReply.trace = newer ++ .start (.write .client 0 msg) :: older →
      msg = chunkedAnswer.render) ∧
    session.Attains (Carrying fun _ => chunkedAnswer) (fun t => t.outstanding = [⟨.readHeader .client 1, none⟩] ∨
      ¬Framed (.replies fun _ => chunkedAnswer) t (.dispatch 0)) afterRequestSent := by
  have run : session.Run (Socket.new 0).start (session.trail (Socket.new 0).start chunkedReply) afterChunkedReply :=
    .of_exec (by decide +kernel)
  have framed : ∀ p ∈ session.trail (Socket.new 0).start chunkedReply,
      Framed (.replies fun _ => chunkedAnswer) p.1 p.2 := by decide +kernel
  have fed : Always (Answering fun _ => chunkedAnswer) afterChunkedReply.trace := by decide +kernel
  have run' : session.Run (Socket.new 0).start (session.trail (Socket.new 0).start requestSent) afterRequestSent :=
    .of_exec (by decide +kernel)
  have framed' : ∀ p ∈ session.trail (Socket.new 0).start requestSent,
      Framed (.replies fun _ => chunkedAnswer) p.1 p.2 := by decide +kernel
  have fed' : Always (Answering fun _ => chunkedAnswer) afterRequestSent.trace := by decide +kernel
  have waiting : afterRequestSent.outstanding = [⟨.readHeader .server 0, none⟩] := by decide +kernel
  obtain ⟨written, -⟩ := reply_framing (run.within ⟨0, rfl⟩ framed) fed
  obtain ⟨-, -, relayed⟩ := reply_framing (run'.within ⟨0, rfl⟩ framed') fed'
  exact ⟨fun newer older msg hl => written newer older 0 msg hl,
    relayed 0 (by decide +kernel) (by decide +kernel) waiting⟩

/-- The interim response comes in a segment of its own: it alone is written to the client. -/
def interimReply : List Event :=
  requestSent ++ [.io 0 (.success (continuedAnswer.render.take 25) []), .dispatch 0]

def afterInterim : Socket := (session.exec (Socket.new 0).start interimReply).getD (Socket.new 0).start

theorem reply_misframed : ¬∀ (requests : Nat → Http.Request) (answers : ∀ k, Http.Answer (requests k)) s,
    session.Reachable s → Always (Answering answers) s.trace →
      ∀ newer older k msg, s.trace = newer ++ .start (.write .client k msg) :: older → msg = (answers k).render := by
  intro framed
  have reached : session.Reachable afterInterim := (session_start 0).exec_getD
  have fed : Always (Answering fun _ => continuedAnswer) afterInterim.trace := by decide +kernel
  have written : afterInterim.trace = [] ++ .start (.write .client 0 (continuedAnswer.render.take 25)) ::
      afterInterim.trace.tail := by decide +kernel
  have whole := framed (fun _ => samplePost) (fun _ => continuedAnswer) _ reached fed _ _ _ _ written
  exact absurd whole (by decide +kernel)

/-! ### Answers that are recognised -/

/-- The same for an answer without interim responses. -/
theorem answer_recognised {r : Http.Request} {a : Http.Answer r} {plus : Bytes} {pos : Nat} (hi : a.interims = [])
    (hr : a.final.payload.Recognised a.final.head) (hp : plus <+: a.render) (hpos : find? headerEnd plus = some pos) :
    BodyEnds a.render.length plus (plus.take (pos + headerEnd.length)) := by
  have alone : a.render = a.final.head ++ a.final.payload.render := by
    rw [Http.Answer.render, hi]
    rfl
  rw [alone] at hp ⊢
  obtain ⟨n, hn, hlen⟩ := a.final.find?_head a.final.payload.render
  exact bodyEnds_of_recognised hr hn hlen hp hpos

end HttpProxy
