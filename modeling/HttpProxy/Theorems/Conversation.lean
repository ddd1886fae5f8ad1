import HttpProxy.Theorems.Clarity
import HttpProxy.Theorems.Failures
import HttpProxy.Theorems.Smooth

/-! Conversations. As long as the peers cooperate, a session brings every message to its other side, and is then ready
    for the next request: in every order of the events, and however the messages are cut. -/

namespace HttpProxy
open Search Machine

namespace Smooth
variable {xs : List Exchange} {x : Exchange} {k : Nat} {s t : Socket} {op : Op} {o : Outstanding} {c : Completion}

/-! #### What the peers do -/

/-- A change that moves no byte, while the same operation is outstanding. -/
theorem hold (h : Smooth xs x k s) (still : Still s t) (hone : s.outstanding = [o]) {q : Option Completion}
    (next : t.outstanding = [⟨o.op, q⟩]) (within : ∀ side, session.Within (Framed (.exchanges xs side)) t)
    (connected : t.clientConnected = s.clientConnected)
    (patient : t.now < t.timer.expiry ∧ ∀ ec ∈ t.timer.queue, ec = some .operationAborted)
    (awaits : Outstanding.Awaits x t ⟨o.op, q⟩) : Smooth xs x k t where
  exchange := h.exchange
  within := within
  running := still.running.trans h.running
  connected := connected.trans h.connected
  patient := patient
  told side := by rw [still.taken_eq, still.since_eq, h.told]
  heard side := by
    rw [still.since_eq]
    exact h.heard side
  stage := by
    obtain ⟨hk, -, full⟩ := h.at_stage hone
    refine ⟨_, next, hk, awaits, fun side hside => ?_⟩
    rw [still.since_eq]
    exact full side hside

/-- A peer sends more of its message. -/
theorem read {side : Side} {data : Bytes} (h : Smooth xs x k s) (hone : s.outstanding = [⟨op, none⟩])
    (hop : op.reads side = true) (hdata : data ≠ []) (feed : takenSince side k s.trace ++ data <+: (x.said side).text)
    (ht : t = { s with outstanding := [⟨op, some (.success data [])⟩], trace := .taken side data :: s.trace })
    (within : ∀ side, session.Within (Framed (.exchanges xs side)) t)
    (awaits : Outstanding.Awaits x t ⟨op, some (.success data [])⟩) :
    Smooth xs x k t ∧ Lower (rank xs t) (rank xs s) := by
  obtain ⟨hk, -, full⟩ := h.at_stage hone
  have since : ∀ side', takenSince side' k t.trace =
      takenSince side' k s.trace ++ if side = side' then data else [] := by
    intro side'
    rw [ht, takenSince]
    split <;> simp
  have total : ∀ side', taken side' t.trace = taken side' s.trace ++ if side = side' then data else [] := by
    intro side'
    rw [ht, taken]
    split <;> simp
  have next : t.outstanding = [⟨op, some (.success data [])⟩] := by rw [ht]
  have unheard : op.heardOut side = false := by
    cases op with
    | readHeader side' k' | readBody side' k' =>
      obtain rfl : side' = side := by simpa [Op.reads] using hop
      cases side' <;> rfl
    | resolve | connect | write => cases hop
  refine ⟨?_, ?_⟩
  · exact {
      exchange := h.exchange
      within := within
      running := by rw [ht]; exact h.running
      connected := by rw [ht]; exact h.connected
      patient := by rw [ht]; exact h.patient
      told := fun side' => by rw [total, since, h.told, List.append_assoc]
      heard := fun side' => by
        rw [since]
        by_cases hs : side = side'
        · rw [if_pos hs, ← hs]
          exact feed
        · rw [if_neg hs, List.append_nil]
          exact h.heard side'
      stage := ⟨_, next, hk, awaits, fun side' hside => by
        have hs : side ≠ side' := by
          rintro rfl
          exact absurd (unheard.symm.trans hside) Bool.false_ne_true
        rw [since, if_neg hs, List.append_nil]
        exact full side' hside⟩ }
  · have hle := feed.length_le
    have hlen := List.length_pos_iff.mpr hdata
    rw [List.length_append] at hle
    have left : unsaid xs k t side < unsaid xs k s side := by
      simp only [unsaid, Script.exchanges_len h.exchange, since, ↓reduceIte, List.length_append]
      omega
    refine lower_of_ahead hone next rfl rfl ?_
    simp only at hk
    cases op with
    | readHeader side' k' | readBody side' k' =>
      obtain rfl : side' = side := by simpa [Op.reads] using hop
      rw [hk]
      simp only [Outstanding.ahead, Option.isSome_none, Option.isSome_some, ↓reduceIte, Bool.false_eq_true]
      omega
    | resolve | connect | write => cases hop

/-- A step of an operation that moves no byte towards the session. -/
theorem progress {q : Completion} (h : Smooth xs x k s) (hone : s.outstanding = [⟨op, none⟩])
    (ht : t = { s with outstanding := [⟨op, some q⟩], trace := op.shows q ++ s.trace })
    (within : ∀ side, session.Within (Framed (.exchanges xs side)) t) (hn : ∀ a ∈ op.shows q, a.still = true)
    (awaits : Outstanding.Awaits x t ⟨op, some q⟩)
    (less : ∀ left, Outstanding.ahead left ⟨op, some q⟩ < Outstanding.ahead left ⟨op, none⟩) :
    Smooth xs x k t ∧ Lower (rank xs t) (rank xs s) := by
  have still : Still s t := ⟨by rw [ht], op.shows q, by rw [ht], hn⟩
  have next : t.outstanding = [⟨op, some q⟩] := by rw [ht]
  have same : unsaid xs op.msgId t = unsaid xs op.msgId s := by
    funext side
    rw [unsaid, still.since_eq, unsaid]
  refine ⟨h.hold still hone next within (by rw [ht]) (by rw [ht]; exact h.patient) awaits, ?_⟩
  exact lower_of_ahead hone next rfl rfl (same ▸ less _)

/-- A completion that is welcome. -/
theorem io (h : Smooth xs x k s) (hone : s.outstanding = [⟨op, none⟩]) (hc : op.allows c = true)
    (welcome : op.Welcome xs s c)
    (ht : t = { s with outstanding := [⟨op, some c⟩], trace := op.shows c ++ s.trace })
    (within : ∀ side, session.Within (Framed (.exchanges xs side)) t) :
    Smooth xs x k t ∧ Lower (rank xs t) (rank xs s) := by
  obtain ⟨hk, awaits, -⟩ := h.at_stage hone
  cases op with
  | readHeader side k' =>
    obtain rfl : k' = k := hk
    cases c with
    | failure ec => exact welcome.elim
    | success data endpoints =>
      simp only [Op.allows, Bool.and_eq_true, decide_eq_true_eq] at hc
      obtain ⟨hdata, rfl⟩ := hc
      obtain ⟨feed, uncut⟩ := welcome x h.exchange
      refine h.read hone (by simp [Op.reads]) hdata feed ht within ⟨?_, fun c hc => ⟨data, (Option.some.inj hc).symm⟩⟩
      rw [ht]
      simpa [Op.shows, takenSince] using uncut
  | readBody side k' limit httpBody =>
    obtain rfl : k' = k := hk
    cases c with
    | failure ec => exact welcome.elim
    | success data endpoints =>
      simp only [Op.allows, Bool.and_eq_true, decide_eq_true_eq] at hc
      obtain ⟨⟨hdata, rfl⟩, -⟩ := hc
      refine h.read hone (by simp [Op.reads]) hdata (welcome x h.exchange) ht within
        ⟨fun hl => ?_, fun c hc => ⟨data, (Option.some.inj hc).symm⟩⟩
      rw [ht]
      exact awaits.1 hl
  | resolve k' host =>
    cases c with
    | failure ec => exact welcome.elim
    | success data endpoints =>
      obtain rfl : data = [] := by simpa [Op.allows] using hc
      refine h.progress hone ht within (fun a ha => ?_) (fun c hc => ⟨endpoints, welcome, (Option.some.inj hc).symm⟩)
        fun left => by simp [Outstanding.ahead]
      rw [List.mem_singleton.mp ha]
      rfl
  | connect k' entries =>
    have quiet : ∀ a ∈ (Op.connect k' entries).shows c, a.still = true := fun a ha => by cases c <;> cases ha
    refine h.progress hone ht within quiet ⟨awaits.1, fun c' hc' => ?_⟩ fun left => by simp [Outstanding.ahead]
    obtain rfl : c = c' := Option.some.inj hc'
    cases c with
    | failure ec => exact Or.inr ⟨ec, welcome, rfl⟩
    | success data endpoints =>
      simp only [Op.allows, Bool.and_eq_true, decide_eq_true_eq] at hc
      obtain ⟨rfl, rfl⟩ := hc
      exact Or.inl rfl
  | write side k' rest =>
    cases c with
    | failure ec => exact welcome.elim
    | success data endpoints =>
      simp only [Op.allows, Bool.and_eq_true, decide_eq_true_eq] at hc
      obtain ⟨⟨hdata, -⟩, rfl⟩ := hc
      refine h.progress hone ht within (fun a ha => ?_)
        ⟨awaits.1, fun c hc => ⟨data, hdata, (Option.some.inj hc).symm⟩⟩ fun left => by simp [Outstanding.ahead]
      rw [List.mem_singleton.mp ha]
      rfl

/-! #### The timer and the time -/

/-- A change of the timer or the time alone. -/
theorem tick (h : Smooth xs x k s) (still : Still s t) (ho : t.outstanding = s.outstanding)
    (hm : t.messages = s.messages) (connected : t.clientConnected = s.clientConnected)
    (within : ∀ side, session.Within (Framed (.exchanges xs side)) t)
    (patient : t.now < t.timer.expiry ∧ ∀ ec ∈ t.timer.queue, ec = some .operationAborted)
    (less : t.timer.queue.length + (t.timer.expiry - t.now) < s.timer.queue.length + (s.timer.expiry - s.now)) :
    Smooth xs x k t ∧ Lower (rank xs t) (rank xs s) := by
  obtain ⟨⟨op, q⟩, hone, -, awaits, -⟩ := h.stage
  have same : unsaid xs op.msgId t = unsaid xs op.msgId s := by
    funext side
    rw [unsaid, still.since_eq, unsaid]
  have awaits' : Outstanding.Awaits x t ⟨op, q⟩ := by
    cases op with
    | readHeader side k' =>
      rw [Outstanding.Awaits, still.since_eq]
      exact awaits
    | readBody side k' limit httpBody =>
      rw [Outstanding.Awaits, Socket.message_congr hm]
      exact awaits
    | resolve | connect | write => exact awaits
  refine ⟨h.hold still hone (ho.trans hone) within connected patient awaits', ?_⟩
  rw [rank_of hone, rank_of (ho.trans hone), same]
  exact Prod.Lex.right _ (Prod.Lex.right _ less)

/-- The wait that a request's handler aborted begins again. -/
theorem wait (h : Smooth xs x k s) {ec : Option ErrorCode} {queue : List (Option ErrorCode)}
    (hq : s.timer.queue = ec :: queue)
    (within : ∀ side, session.Within (Framed (.exchanges xs side))
      (({ s with timer := { s.timer with queue := queue } } : Socket).handleWait ec)) :
    Smooth xs x k (({ s with timer := { s.timer with queue := queue } } : Socket).handleWait ec) ∧
      Lower (rank xs (({ s with timer := { s.timer with queue := queue } } : Socket).handleWait ec)) (rank xs s) := by
  obtain rfl : ec = some .operationAborted := h.patient.2 ec (hq ▸ List.mem_cons_self)
  have again : ({ s with timer := { s.timer with queue := queue } } : Socket).handleWait (some .operationAborted) =
      ({ s with timer := { s.timer with queue := queue } } : Socket).asyncWait := by
    simp [Socket.handleWait, h.running]
  rw [again] at within ⊢
  refine h.tick (.one rfl rfl rfl) rfl rfl rfl within ⟨h.patient.1, fun ec hec => ?_⟩ ?_
  · exact h.patient.2 ec (hq ▸ List.mem_cons_of_mem _ hec)
  · show queue.length + (s.timer.expiry - s.now) < s.timer.queue.length + (s.timer.expiry - s.now)
    rw [hq, List.length_cons]
    omega

theorem elapse {d : Nat} (h : Smooth xs x k s) (hd : 0 < d) (early : s.now + d < s.timer.expiry)
    (within : ∀ side, session.Within (Framed (.exchanges xs side)) { s with now := s.now + d }) :
    Smooth xs x k { s with now := s.now + d } ∧ Lower (rank xs { s with now := s.now + d }) (rank xs s) := by
  refine h.tick (.quiet rfl rfl) rfl rfl rfl within ⟨early, h.patient.2⟩ ?_
  show s.timer.queue.length + (s.timer.expiry - (s.now + d)) < s.timer.queue.length + (s.timer.expiry - s.now)
  omega

/-! #### The course of a conversation -/

/-- An event of a conversation brings it on. -/
theorem step {e : Event} (h : Smooth xs x k s) (he : Cooperates xs s e) (hs : session.Step s e t) :
    Concluded xs t ∨ ∃ k' x', Smooth xs x' k' t ∧ Lower (rank xs t) (rank xs s) := by
  have within : (∀ side, Framed (.exchanges xs side) s e) → ∀ side, session.Within (Framed (.exchanges xs side)) t :=
    fun framed side => .step e (h.within side) (framed side) hs
  cases (reachable_chain h.reachable).move hs with
  | io hone hc => exact Or.inr ⟨k, x, h.io hone hc (he _ (by rw [hone]; rfl)) rfl (within fun _ => trivial)⟩
  | dispatch hone hr => exact h.dispatch hone hr
  | wait hq => exact Or.inr ⟨k, x, h.wait hq (within fun _ => trivial)⟩
  | expire _ hx =>
    have early := h.patient.1
    omega
  | elapse d => exact Or.inr ⟨k, x, h.elapse he.1 he.2 (within fun _ => trivial)⟩
  | close | disconnect => exact he.elim

/-- No event of a conversation faults. -/
theorem safe {e : Event} (h : Smooth xs x k s) (he : Cooperates xs s e) : ¬session.Faults s e := by
  rintro ⟨f, hf⟩
  cases e with
  | dispatch i =>
    obtain ⟨op, c, hi, hr⟩ := Socket.step_dispatch hf
    obtain ⟨hone, rfl⟩ := Move.eq_singleton (reachable_chain h.reachable).single hi
    obtain ⟨t, ht⟩ := (Socket.resume_ok_iff (s := { s with outstanding := [] })).mpr (h.contained hone)
    rw [hone] at hr
    cases hr.trans ht
  | io i c =>
    obtain ⟨op, -, -, hr⟩ := Socket.step_io hf
    cases hr
  | wait =>
    obtain ⟨ec, queue, -, ht⟩ := Socket.step_wait hf
    cases ht
  | expire =>
    obtain ⟨-, -, ht⟩ := Socket.step_expire hf
    cases ht
  | elapse d => cases hf
  | close | disconnect => exact he.elim

/-- A peer that is listened to can send what is left of its message. -/
theorem sendable (h : Smooth xs x k s) (side : Side) (hone : s.outstanding = [⟨op, none⟩])
    (hop : op.reads side = true) :
    ∃ more, takenSince side k s.trace ++ more = (x.said side).text ∧ op.allows (.success more []) = true := by
  have mem : (⟨op, none⟩ : Outstanding) ∈ s.outstanding := hone ▸ List.mem_singleton_self _
  obtain ⟨hk, -⟩ := h.at_stage hone
  have hk : op.msgId = k := hk
  have len := Script.exchanges_len h.exchange side
  have fitting := within_fitting (h.within side)
  obtain ⟨more, hmore⟩ := h.heard side
  have short : ¬(x.said side).text <+: takenSince side op.msgId s.trace :=
    fitting.read_short (reachable_transparent h.reachable) mem hop (hk ▸ len) (x.said side).headerEnd_in_text
  have hne : more ≠ [] := by
    rintro rfl
    rw [List.append_nil] at hmore
    rw [hk, hmore] at short
    exact short (List.prefix_refl _)
  refine ⟨more, hmore, ?_⟩
  have stored := h.stored hone side
  have fits := fitting.fits _ mem
  cases op with
  | readHeader => simp [Op.allows, hne]
  | readBody side' k' limit httpBody =>
    obtain rfl : side' = side := by simpa [Op.reads] using hop
    obtain rfl : k' = k := hk
    cases limit with
    | none => simp [Op.allows, hne]
    | some n =>
      obtain ⟨-, hlen, -⟩ := fits rfl
      have hlen : (s.message side' k').length + n = (Script.exchanges xs side').len k' := hlen
      have total := congrArg List.length hmore
      simp only [Outstanding.inFlight, ↓reduceIte, Option.elim_none, List.append_nil] at stored
      rw [stored, List.length_append, List.length_append, ← len] at total
      have hle : httpBody.length + more.length ≤ n := by omega
      simp [Op.allows, hne, hle]
  | resolve | connect | write => cases hop

/-- Until it is concluded, a conversation can go on. -/
theorem enabled (h : Smooth xs x k s) : ∃ e out, Cooperates xs s e ∧ session.step s e = some out := by
  obtain ⟨⟨op, q⟩, hone, hk, awaits, -⟩ := h.stage
  cases q with
  | some c =>
    exact ⟨.dispatch 0, { s with outstanding := [] }.resume op c, trivial, by
      rw [session_step_eq]
      simp [Socket.step, hone]⟩
  | none =>
    have possible : ∀ c, op.allows c = true → op.Welcome xs s c →
        ∃ e out, Cooperates xs s e ∧ session.step s e = some out := by
      intro c allowed welcome
      refine ⟨.io 0 c, .ok { s with outstanding := [⟨op, some c⟩], trace := op.shows c ++ s.trace }, fun o ho => ?_, ?_⟩
      · obtain rfl : ⟨op, none⟩ = o := by simpa [hone] using ho
        exact welcome
      · rw [session_step_eq]
        simp [Socket.step, hone, allowed]
    have same : ∀ x' ∈ xs[k]?, x' = x := fun x' hx => Option.some.inj (hx.symm.trans h.exchange)
    cases op with
    | readHeader side k' =>
      obtain rfl : k' = k := hk
      obtain ⟨more, hmore, allowed⟩ := h.sendable side hone (by simp [Op.reads])
      refine possible _ allowed fun x' hx => ?_
      rw [same x' hx, hmore]
      exact ⟨List.prefix_refl _, fun _ _ _ => Or.inl rfl⟩
    | readBody side k' limit httpBody =>
      obtain rfl : k' = k := hk
      obtain ⟨more, hmore, allowed⟩ := h.sendable side hone (by simp [Op.reads])
      refine possible _ allowed fun x' hx => ?_
      rw [same x' hx, hmore]
    | resolve k' host => exact possible (.success [] [⟨0, 80⟩]) rfl (List.cons_ne_nil _ _)
    | connect k' entries => exact possible (.success [] []) rfl trivial
    | write side k' rest => exact possible (.success rest []) (by simp [Op.allows, awaits.1]) trivial

theorem attains (h : Smooth xs x k s) : session.Attains (Cooperates xs) (Concluded xs) s := by
  refine .of_wellFounded (I := fun s => ∃ k x, Smooth xs x k s) lower_wf (rank xs) ⟨k, x, h⟩ (fun s h _ => ?_)
    (fun s e h _ he => ?_) fun s e t h _ he hs => ?_
  · obtain ⟨k, x, h⟩ := h
    exact h.enabled
  · obtain ⟨k, x, h⟩ := h
    exact h.safe he
  · obtain ⟨k, x, h⟩ := h
    rcases h.step he hs with done | ⟨k', x', smooth, less⟩
    · exact Or.inl done
    · exact Or.inr ⟨⟨k', x', smooth⟩, less⟩

end Smooth

/-- A new session is ready for the first request. -/
theorem start_smooth {xs : List Exchange} {x : Exchange} (hx : xs[0]? = some x) (now : Nat) :
    Smooth xs x 0 (Socket.new now).start where
  exchange := hx
  within _ := .init ⟨now, rfl⟩
  running := rfl
  connected := rfl
  patient := ⟨Nat.lt_add_of_pos_right (by decide), fun _ hec => absurd hec List.not_mem_nil⟩
  told _ := rfl
  heard _ := List.nil_prefix
  stage := ⟨_, rfl, rfl, ⟨Spoken.uncut_nil _, fun c hc => by cases hc⟩, fun side hside => by cases side <;> cases hside⟩

/-- Whatever a client and the servers say, as long as it is recognised: while they cooperate, the session comes to where
    all is sent on. -/
theorem start_attains (xs : List Exchange) (now : Nat) :
    session.Attains (Cooperates xs) (Concluded xs) (Socket.new now).start := by
  cases xs with
  | nil => exact .goal ⟨rfl, fun side => rfl⟩
  | cons x xs => exact (start_smooth (x := x) rfl now).attains

/-- Requests and answers of HTTP that leave nothing in doubt, however they are delayed and cut, as long as each peer
    sends only the message of the round and the end of the chunks is not cut by the read of the header, and in whatever
    order the events of the timer come between: while the peers cooperate before the deadline, something can always
    happen, no handler faults, and the session comes to where the servers were sent exactly the requests, the client was
    sent exactly the answers, and another request is waited for; if the client then ends its stream, the session is
    released. -/
theorem conversation (xs : List ClearExchange) (now : Nat) :
    session.Attains (Cooperates (xs.map ClearExchange.exchange)) (fun t =>
      t.outstanding = [⟨.readHeader .client xs.length, none⟩] ∧
        sent .server t.trace = xs.flatMap (fun x => x.request.render) ∧
          sent .client t.trace = xs.flatMap (fun x => x.answer.render) ∧ session.Attains Failing Free t)
      (Socket.new now).start := by
  have requests : texts .client (xs.map ClearExchange.exchange) = xs.flatMap fun x => x.request.render := by
    rw [texts, List.flatMap_map]
    rfl
  have answers : texts .server (xs.map ClearExchange.exchange) = xs.flatMap fun x => x.answer.render := by
    rw [texts, List.flatMap_map]
    exact congrArg (xs.flatMap ·) (funext fun x => x.answer_render.symm)
  refine ((start_attains _ now).reachable (session_start now)).mono ?_
  rintro t ⟨reached, waiting, all⟩
  rw [List.length_map] at waiting
  have released := (reachable_waning reached waiting trivial).attains
  exact ⟨waiting, (all .client).trans requests, (all .server).trans answers, released⟩

/-- A request with a length, and an answer in chunks. -/
def sampleExchange : ClearExchange where
  request := samplePost
  answer := chunkedAnswer
  version := Or.inr rfl
  host := ⟨[], hostA, [lengthThree], rfl, by decide +kernel⟩
  body := ⟨⟨[hostA], lengthThree, [], rfl, by decide +kernel⟩, by decide +kernel⟩
  alone := rfl
  reply := ⟨by decide +kernel, 8, by decide +kernel⟩

end HttpProxy
