import HttpProxy.Theorems.Chunks
import HttpProxy.Theorems.Framing

/-! `read_body` over a stream. What it was given with the header, and the segments that arrive later, make it run its
    callback or not; here is what it decides from them, and that nothing of the header but its class and its length
    has a part in it. -/

namespace HttpProxy
open Search Socket

/-- What a read of a body takes of a segment: as much as its buffer has room for. -/
def fill (limit : Option Nat) (httpBody segment : Bytes) : Bytes :=
  match limit with
  | some n => segment.take (n - httpBody.length)
  | none => segment

namespace Socket

/-- A segment arrives. A read of the body that waits takes of it what it can, and its completion is run. -/
def receive (s : Socket) (segment : Bytes) : Option Socket :=
  match s.outstanding with
  | [⟨.readBody _ _ limit httpBody, none⟩] =>
    if fill limit httpBody segment = [] then some s
    else session.exec s [.io 0 (.success (fill limit httpBody segment) []), .dispatch 0]
  | _ => some s

/-- A completion of a read of the body that was queued at once is run. -/
def settle (s : Socket) : Option Socket :=
  match s.outstanding with
  | [⟨.readBody _ _ _ _, some _⟩] => session.exec s [.dispatch 0]
  | _ => some s

/-- `read_body` is called, and the segments arrive. -/
def bodyOver (s : Socket) (side : Side) (k : Nat) (header : Bytes) (segments : List Bytes) : Option Socket := do
  let t ← (s.readBody side k header).toOption
  segments.foldlM receive (← t.settle)

end Socket

/-- The operations that the callback for the body of a side starts. -/
def Action.calls (side : Side) (k : Nat) : Action → Bool
  | start (.resolve k' _) => side = .client && k' = k
  | start (.write side' k' _) => side' = side.other && k' = k
  | _ => false

/-- How often the callback for the body of a side has been run. -/
def callbacks (side : Side) (k : Nat) (s : Socket) : Nat := s.trace.countP (Action.calls side k)

/-- What `read_body` decides over segments: how often its callback is run, and which bytes are taken for the body.
    There is no decision where the length does not parse. -/
def Socket.decision (s : Socket) (side : Side) (k : Nat) (header : Bytes) (segments : List Bytes) :
    Option (Nat × Bytes) :=
  (s.bodyOver side k header segments).map fun t =>
    (callbacks side k t - callbacks side k s, (taken side t.trace).drop (taken side s.trace).length)

/-- A session in the handler of a header, where `read_body` is called: no operation is outstanding, and the string
    of the side holds the header with what was read along with it. -/
structure HeaderRead (s : Socket) (side : Side) (k : Nat) (header buffered : Bytes) : Prop where
  running : s.stopped = false
  idle : s.outstanding = []
  entry : k < s.messages.length
  held : s.message side k = header ++ buffered

section Header
variable {s t : Socket} {side : Side} {k n : Nat} {header buffered data : Bytes}

/-- The handler of a header calls `read_body` with it. -/
theorem HeaderRead.of_handler (h : HeaderRead s side k header buffered) (hn : n = header.length)
    (hv : side = .client → supported (header ++ buffered) = true) (hh : s.headerHandler side k none n = .ok t) :
    ∃ u, HeaderRead u side k header buffered ∧ u.readBody side k header = .ok t := by
  have whole : (s.message side k).take n = header := by rw [h.held, hn, List.take_left]
  cases side with
  | client =>
    have hc : s.clientHeaderHandler k none n = .ok t := hh
    rcases Socket.clientHeaderHandler_cases hc with ⟨-, running | aborted | ⟨-, version, hver, hgt⟩⟩ | ⟨-, -, ended⟩ |
        ⟨-, -, -, host, -, hbody⟩
    · rw [h.running] at running
      cases running
    · cases aborted
    · have below := hv rfl
      rw [h.held] at hver
      simp [supported, hver, hgt] at below
    · cases ended
    · rw [whole] at hbody
      exact ⟨{ s.cancelTimer with currHost := host }.log (.host k (s.message .client k) host),
        ⟨h.running, h.idle, h.entry, h.held⟩, hbody⟩
  | server =>
    have hc : s.serverHeaderHandler k none n = .ok t := hh
    rcases Socket.serverHeaderHandler_cases hc with ⟨-, running | aborted | ended⟩ | ⟨-, -, reset⟩ | ⟨-, -, hbody⟩
    · rw [h.running] at running
      cases running
    · cases aborted
    · cases ended
    · cases reset
    · rw [whole] at hbody
      exact ⟨s, h, hbody⟩

/-- When the completion that ends a header is run, `read_body` is called with the header. -/
theorem headerRead_of_dispatch {pos : Nat} {endpoints : List Endpoint} (reachable : session.Reachable s)
    (running : s.stopped = false) (ho : s.outstanding = [⟨.readHeader side k, some (.success data endpoints)⟩])
    (hpos : find? headerEnd (s.message side k ++ data) = some pos)
    (hv : side = .client → supported (s.message side k ++ data) = true) (hs : session.Step s (.dispatch 0) t) :
    ∃ u, HeaderRead u side k ((s.message side k ++ data).take (pos + headerEnd.length))
        ((s.message side k ++ data).drop (pos + headerEnd.length)) ∧
      u.readBody side k ((s.message side k ++ data).take (pos + headerEnd.length)) = .ok t := by
  have entry : k < s.messages.length := by
    have current := (reachable_chain reachable).current _ (ho ▸ List.mem_singleton_self _)
    exact Nat.lt_of_succ_le (Nat.le_of_eq current)
  let idle : Socket := { s with outstanding := [] }
  have text : (idle.append side k data).message side k = s.message side k ++ data := message_append entry data
  cases (reachable_chain reachable).move hs with
  | @dispatch op c t hop hr =>
    rw [ho] at hop
    obtain ⟨rfl, hc⟩ := Outstanding.mk.inj (List.cons.inj hop).1
    rw [← Option.some.inj hc] at hr
    have handler : ((idle.append side k data).finish (.readHeader side k) none).headerHandler side k none
        (pos + headerEnd.length) = .ok t := by
      simp only [Socket.resume] at hr
      rw [show ({ s with outstanding := [] } : Socket) = idle from rfl, text, hpos] at hr
      exact hr
    have hle : pos + headerEnd.length ≤ (s.message side k ++ data).length := find?_add_length_le hpos
    have length := (List.length_take_of_le hle).symm
    refine HeaderRead.of_handler (s := (idle.append side k data).finish _ none) ⟨running, rfl, ?_, ?_⟩ length ?_ handler
    · show k < (idle.append side k data).messages.length
      simpa using entry
    · rw [List.take_append_drop]
      exact text
    · rw [List.take_append_drop]
      exact hv

end Header

/-- The session in the handler of its first request, of which `text` has been read. -/
def firstRequest (text host : Bytes) : Socket :=
  let s := { (Socket.new 0).start with outstanding := [] }.log (.taken .client text)
  let s := (s.append .client 0 text).finish (.readHeader .client 0) none
  { s.cancelTimer with currHost := host }.log (.host 0 text host)

theorem firstRequest_headerRead (header buffered host : Bytes) :
    HeaderRead (firstRequest (header ++ buffered) host) .client 0 header buffered :=
  ⟨rfl, rfl, Nat.one_pos, rfl⟩

/-- The body that a read has after the segments. -/
def feed (limit : Option Nat) : Bytes → List Bytes → Bytes
  | httpBody, [] => httpBody
  | httpBody, segment :: segments =>
    if bodyDone limit httpBody then httpBody else feed limit (httpBody ++ fill limit httpBody segment) segments

/-! ### One segment -/

/-- Since `s`, the callback was run with `httpBody` appended to the message, and nothing reads any more. -/
structure Called (s t : Socket) (side : Side) (k : Nat) (httpBody : Bytes) : Prop where
  away : ∀ o ∈ t.outstanding, ∀ side', o.op.reads side' = false
  message : t.message side k = s.message side k ++ httpBody
  callbacks : callbacks side k t = callbacks side k s + 1
  taken : taken side t.trace = taken side s.trace ++ httpBody

/-- Since `s`, a read has come to `httpBody` and waits for more. -/
structure Waiting (s t : Socket) (side : Side) (k : Nat) (limit : Option Nat) (httpBody : Bytes) : Prop where
  running : t.stopped = false
  reads : t.outstanding = [⟨.readBody side k limit httpBody, none⟩]
  messages : t.messages = s.messages
  callbacks : callbacks side k t = callbacks side k s
  taken : taken side t.trace = taken side s.trace ++ httpBody

/-- Since `s`, a read has come to `httpBody`. -/
def Come (s t : Socket) (side : Side) (k : Nat) (limit : Option Nat) (httpBody : Bytes) : Prop :=
  if bodyDone limit httpBody = true then Called s t side k httpBody else Waiting s t side k limit httpBody

section Segments
variable {s t : Socket} {side : Side} {k : Nat} {limit : Option Nat} {header buffered httpBody data : Bytes}

theorem receive_away (away : ∀ o ∈ t.outstanding, ∀ side', o.op.reads side' = false) (segment : Bytes) :
    t.receive segment = some t := by
  unfold Socket.receive
  split
  · rename_i side' k' limit httpBody he
    have reads := away _ (he ▸ List.mem_singleton_self _) side'
    simp [Op.reads] at reads
  · rfl

theorem settle_away (away : ∀ o ∈ t.outstanding, ∀ side', o.op.reads side' = false) : t.settle = some t := by
  unfold Socket.settle
  split
  · rename_i side' k' limit httpBody c he
    have reads := away _ (he ▸ List.mem_singleton_self _) side'
    simp [Op.reads] at reads
  · rfl

/-- The callback starts one operation, which is no read. -/
theorem called_callback (idle : t.outstanding = []) (hm : t.message side k = s.message side k ++ httpBody)
    (hc : callbacks side k t = callbacks side k s) (ht : taken side t.trace = taken side s.trace ++ httpBody) :
    Called s (t.callback side k) side k httpBody := by
  have one : ∀ op q, t.callback side k = t.startOp op q → Action.calls side k (.start op) = true →
      Called s (t.callback side k) side k httpBody := by
    intro op q he hop
    refine ⟨fun o ho side' => ?_, ?_, ?_, ?_⟩
    · have hone : o = ⟨op, q⟩ := mem_startOp idle (he ▸ ho)
      rw [hone]
      cases op <;> first | rfl | cases hop
    · rw [he, ← hm]
      rfl
    · rw [← hc, he]
      exact List.countP_cons_of_pos hop
    · rw [he, ← ht]
      cases op <;> rfl
  cases side with
  | client =>
    rcases callback_client_cases t k with he | ⟨-, -, he⟩
    · exact one _ _ he (by simp [Action.calls])
    · exact one _ _ he (by simp [Action.calls, Side.other])
  | server => exact one _ _ rfl (by simp [Action.calls, Side.other])

/-- The completion of a read is run. -/
theorem dispatch_come (running : t.stopped = false)
    (ho : t.outstanding = [⟨.readBody side k limit httpBody, some (.success data [])⟩]) (hk : k < s.messages.length)
    (hm : t.messages = s.messages) (hc : callbacks side k t = callbacks side k s)
    (ht : taken side t.trace = taken side s.trace ++ (httpBody ++ data)) :
    ∃ u, session.exec t [.dispatch 0] = some u ∧ Come s u side k limit (httpBody ++ data) := by
  have step : session.step t (.dispatch 0) =
      some ({ t with outstanding := [] }.resume (.readBody side k limit httpBody) (.success data [])) := by
    rw [session_step_eq, Socket.step, ho]
    rfl
  have exec : ∀ u, { t with outstanding := [] }.resume (.readBody side k limit httpBody) (.success data []) = .ok u →
      session.exec t [.dispatch 0] = some u := fun u hu => by
    rw [Machine.exec, step, hu]
    rfl
  cases hdone : bodyDone limit (httpBody ++ data) with
  | true =>
    refine ⟨_, exec _ (if_pos hdone), ?_⟩
    rw [Come, if_pos hdone]
    refine called_callback rfl ?_ hc ht
    have entry : k < t.messages.length := hm ▸ hk
    exact (message_append entry _).trans (congrArg (· ++ _) (message_congr hm))
  | false =>
    refine ⟨_, exec _ (if_neg (by simp [hdone])), ?_⟩
    rw [Come, if_neg (by simp [hdone])]
    exact ⟨running, rfl, hm, hc, ht⟩

theorem fill_length (n : Nat) (httpBody segment : Bytes) :
    (fill (some n) httpBody segment).length ≤ n - httpBody.length :=
  List.length_take_le _ _

/-- A segment brings a read that waits on by what it takes of it. -/
theorem receive_waiting (h : Waiting s t side k limit httpBody) (hk : k < s.messages.length)
    (hd : bodyDone limit httpBody = false) (segment : Bytes) :
    ∃ u, t.receive segment = some u ∧ Come s u side k limit (httpBody ++ fill limit httpBody segment) := by
  by_cases hnil : fill limit httpBody segment = []
  · refine ⟨t, ?_, ?_⟩
    · simp only [Socket.receive, h.reads, if_pos hnil]
    · rw [hnil, List.append_nil, Come, if_neg (by simp [hd])]
      exact h
  · have fits : (Op.readBody side k limit httpBody).allows (.success (fill limit httpBody segment) []) = true := by
      cases limit with
      | none => simp [Op.allows, hnil]
      | some n =>
        have hpos := List.length_pos_iff.mpr hnil
        have hle := fill_length n httpBody segment
        have room : httpBody.length + (fill (some n) httpBody segment).length ≤ n := by omega
        simp [Op.allows, hnil, room]
    have receives : t.receive segment =
        session.exec t [.io 0 (.success (fill limit httpBody segment) []), .dispatch 0] := by
      simp only [Socket.receive, h.reads, if_neg hnil]
    generalize fill limit httpBody segment = data at fits receives
    have first : session.step t (.io 0 (.success data [])) = some (.ok { t with
        outstanding := [⟨.readBody side k limit httpBody, some (.success data [])⟩],
        trace := .taken side data :: t.trace }) := by
      rw [session_step_eq, Socket.step, h.reads]
      simp only [List.getElem?_cons_zero, fits, ↓reduceIte, List.set_cons_zero]
      rfl
    rw [receives, Machine.exec, first]
    refine dispatch_come h.running rfl hk h.messages h.callbacks ?_
    rw [← List.append_assoc, ← h.taken]
    exact if_pos rfl

theorem feed_of_done (hd : bodyDone limit httpBody = true) (segments : List Bytes) :
    feed limit httpBody segments = httpBody := by
  cases segments with
  | nil => rfl
  | cons segment segments => rw [feed, if_pos hd]

theorem receive_all_away (away : ∀ o ∈ t.outstanding, ∀ side', o.op.reads side' = false) (segments : List Bytes) :
    segments.foldlM Socket.receive t = some t := by
  induction segments with
  | nil => rfl
  | cons segment segments ih =>
    rw [List.foldlM_cons, receive_away away]
    exact ih

/-- The segments bring a read on by what it takes of them, up to its completion. -/
theorem receive_all (h : Come s t side k limit httpBody) (hk : k < s.messages.length) (segments : List Bytes) :
    ∃ u, segments.foldlM Socket.receive t = some u ∧ Come s u side k limit (feed limit httpBody segments) := by
  induction segments generalizing t httpBody with
  | nil => exact ⟨t, rfl, h⟩
  | cons segment segments ih =>
    cases hd : bodyDone limit httpBody with
    | true =>
      have called := h
      rw [Come, if_pos hd] at called
      rw [feed_of_done hd]
      exact ⟨t, receive_all_away called.away _, h⟩
    | false =>
      rw [Come, if_neg (by simp [hd])] at h
      obtain ⟨u, hu, hcome⟩ := receive_waiting h hk hd segment
      rw [List.foldlM_cons, hu, feed, if_neg (by simp [hd])]
      exact ih hcome

/-! ### From the header on -/

theorem bodyOver_eq {u : Socket} (hr : s.readBody side k header = .ok t) (hu : t.settle = some u)
    (segments : List Bytes) : s.bodyOver side k header segments = segments.foldlM Socket.receive u := by
  rw [Socket.bodyOver, hr]
  show (t.settle >>= fun v => segments.foldlM Socket.receive v) = _
  rw [hu]
  rfl

/-- `read_body` runs the callback at once. -/
theorem bodyOver_called (h : HeaderRead s side k header buffered)
    (hr : s.readBody side k header = .ok (s.callback side k)) (segments : List Bytes) :
    ∃ t, s.bodyOver side k header segments = some t ∧ Called s t side k [] := by
  have called : Called s (s.callback side k) side k [] :=
    called_callback h.idle (List.append_nil _).symm rfl (List.append_nil _).symm
  refine ⟨_, ?_, called⟩
  rw [bodyOver_eq hr (settle_away called.away)]
  exact receive_all_away called.away segments

/-- `read_body` starts a read. -/
theorem bodyOver_reads {q : Option Completion} (h : HeaderRead s side k header buffered)
    (hr : s.readBody side k header = .ok (s.startOp (.readBody side k limit []) q))
    (hq : q = if limit = some 0 then some (.success [] []) else none) (segments : List Bytes) :
    ∃ t, s.bodyOver side k header segments = some t ∧ Come s t side k limit (feed limit [] segments) := by
  have out : (s.startOp (.readBody side k limit []) q).outstanding = [⟨.readBody side k limit [], q⟩] := by
    rw [startOp_outstanding, h.idle, List.nil_append]
  have calls : callbacks side k (s.startOp (.readBody side k limit []) q) = callbacks side k s :=
    List.countP_cons_of_neg (by simp [Action.calls])
  have none_taken : taken side (s.startOp (.readBody side k limit []) q).trace = taken side s.trace ++ [] :=
    (List.append_nil _).symm
  have settled : ∃ u, (s.startOp (.readBody side k limit []) q).settle = some u ∧ Come s u side k limit [] := by
    split at hq <;> subst hq
    · rw [Socket.settle, out]
      exact dispatch_come (t := s.startOp _ _) h.running out h.entry rfl calls none_taken
    · rename_i hne
      have more : bodyDone limit [] = false := by
        cases limit with
        | none => rfl
        | some n => exact beq_false_of_ne fun h0 => hne (congrArg some h0.symm)
      refine ⟨_, by rw [Socket.settle, out], ?_⟩
      rw [Come, if_neg (by simp [more])]
      exact ⟨h.running, out, rfl, calls, none_taken⟩
  obtain ⟨u, hu, come⟩ := settled
  rw [bodyOver_eq hr hu]
  exact receive_all come h.entry segments

end Segments

/-! ### What a read comes to -/

/-- A read up to the terminator is complete once the bytes hold it. -/
theorem feed_chunked (httpBody : Bytes) (segments : List Bytes) :
    bodyDone none (feed none httpBody segments) = true ↔ lastChunk <:+: httpBody ++ segments.flatten := by
  induction segments generalizing httpBody with
  | nil => rw [feed, List.flatten_nil, List.append_nil, bodyDone, find?_isSome_iff]
  | cons segment segments ih =>
    rw [feed]
    split
    · rename_i hd
      exact iff_of_true hd ((find?_isSome_iff.mp hd).trans (List.prefix_append _ _).isInfix)
    · rw [ih, List.flatten_cons, ← List.append_assoc]
      rfl

/-- A read into a buffer of a size has what arrived, up to that size. -/
theorem feed_sized {n : Nat} {httpBody : Bytes} (hle : httpBody.length ≤ n) (segments : List Bytes) :
    feed (some n) httpBody segments = (httpBody ++ segments.flatten).take n := by
  induction segments generalizing httpBody with
  | nil => rw [feed, List.flatten_nil, List.append_nil, List.take_of_length_le hle]
  | cons segment segments ih =>
    rw [feed]
    split
    · rename_i hd
      have hlen : httpBody.length = n := by simpa [bodyDone] using hd
      rw [← hlen, List.take_left]
    · have hfill := fill_length n httpBody segment
      have room : ∀ m, (segment.take m ++ segments.flatten).take m = (segment ++ segments.flatten).take m := fun m => by
        rw [List.take_append, List.take_append, List.take_take, Nat.min_self, List.length_take]
        congr 2
        omega
      rw [ih (by rw [List.length_append]; omega), List.flatten_cons, List.append_assoc, List.take_append, fill, room,
        ← List.take_append]

/-! ### The decision -/

/-- The decision from the class of a header, the length that it gives and the stream behind it alone. -/
def verdict (body : Body) (length : Except Fault Nat) (buffered : Bytes) (segments : List Bytes) :
    Option (Nat × Bytes) :=
  match body with
  | .none => some (1, [])
  | .contentLength => length.toOption.map fun n =>
    let httpBody := feed (some (subSize n buffered.length)) [] segments
    ((bodyDone (some (subSize n buffered.length)) httpBody).toNat, httpBody)
  | .chunked =>
    if (find? lastChunk buffered).isSome then some (1, [])
    else some ((bodyDone none (feed none [] segments)).toNat, feed none [] segments)

/-- The length of the header cancels out. -/
theorem subSize_header (n : Nat) (header buffered : Bytes) :
    subSize n (subSize (header ++ buffered).length header.length) = subSize n buffered.length := by
  have cancel : subSize (header.length + buffered.length) header.length = buffered.length % sizeMod := by
    unfold subSize sizeMod
    omega
  rw [List.length_append, cancel]
  unfold subSize
  rw [Nat.mod_mod]

section Decision
variable {s t : Socket} {side : Side} {k n : Nat} {limit : Option Nat} {header buffered httpBody : Bytes}
  {segments : List Bytes}

theorem Called.decision (h : Called s t side k httpBody) (ht : s.bodyOver side k header segments = some t) :
    s.decision side k header segments = some (1, httpBody) := by
  rw [Socket.decision, ht, Option.map_some, h.callbacks, h.taken, List.drop_left, Nat.add_sub_cancel_left]

theorem Waiting.decision (h : Waiting s t side k limit httpBody) (ht : s.bodyOver side k header segments = some t) :
    s.decision side k header segments = some (0, httpBody) := by
  rw [Socket.decision, ht, Option.map_some, h.callbacks, h.taken, List.drop_left, Nat.sub_self]

theorem Come.decision (h : Come s t side k limit httpBody) (ht : s.bodyOver side k header segments = some t) :
    s.decision side k header segments = some ((bodyDone limit httpBody).toNat, httpBody) := by
  unfold Come at h
  split at h
  · rename_i hd
    rw [hd]
    exact h.decision ht
  · rename_i hd
    rw [Bool.eq_false_iff.mpr hd]
    exact h.decision ht

theorem readBody_sized (side : Side) (k : Nat) (running : s.stopped = false) (hb : identifyBody header = .contentLength)
    (hn : (parseField header (ascii "content-length") >>= stoul) = .ok n) :
    s.readBody side k header = .ok (s.startOp
      (.readBody side k (some (subSize n (subSize (s.message side k).length header.length))) [])
      (if subSize n (subSize (s.message side k).length header.length) = 0 then some (.success [] []) else none)) := by
  obtain ⟨value, hv, hs⟩ := bind_eq_ok.mp hn
  simp only [Socket.readBody, running, hb, Bool.false_eq_true, ↓reduceIte]
  exact bind_eq_ok.mpr ⟨value, hv, bind_eq_ok.mpr ⟨n, hs, rfl⟩⟩

/-- The header has a part in the decision by its class and its length only. -/
theorem decision_eq (h : HeaderRead s side k header buffered) (segments : List Bytes) :
    s.decision side k header segments =
      verdict (identifyBody header) (parseField header (ascii "content-length") >>= stoul) buffered segments := by
  have running := h.running
  cases hb : identifyBody header with
  | none =>
    have hr : s.readBody side k header = .ok (s.callback side k) := by
      simp only [Socket.readBody, running, hb, Bool.false_eq_true, ↓reduceIte]
    obtain ⟨t, ht, called⟩ := bodyOver_called h hr segments
    exact called.decision ht
  | contentLength =>
    cases hn : parseField header (ascii "content-length") >>= stoul with
    | error f =>
      cases hr : s.readBody side k header with
      | error e =>
        rw [Socket.decision, Socket.bodyOver, hr]
        rfl
      | ok t =>
        have branch := readBody_branch running hr
        rw [hb] at branch
        obtain ⟨n, hok, -⟩ := branch
        rw [hn] at hok
        cases hok
    | ok n =>
      have hr := readBody_sized side k running hb hn
      obtain ⟨t, ht, come⟩ := bodyOver_reads h hr (by simp) segments
      rw [h.held, subSize_header] at come
      exact come.decision ht
  | chunked =>
    have found : (findFrom? lastChunk (s.message side k) header.length).isSome = (find? lastChunk buffered).isSome := by
      rw [h.held, findFrom?_append_length, Option.isSome_map]
    have hr : s.readBody side k header = if (find? lastChunk buffered).isSome then .ok (s.callback side k)
        else .ok (s.startOp (.readBody side k none []) none) := by
      simp only [Socket.readBody, running, hb, Bool.false_eq_true, ↓reduceIte, found]
    rw [verdict]
    split at hr
    · rename_i hf
      obtain ⟨t, ht, called⟩ := bodyOver_called h hr segments
      rw [if_pos hf]
      exact called.decision ht
    · rename_i hf
      obtain ⟨t, ht, come⟩ := bodyOver_reads h hr rfl segments
      rw [if_neg hf]
      exact come.decision ht

end Decision

/-! ### Headers have no part in it -/

/-- Two headers of one class, and of one length where it is given, lead to the same decision over the same stream
    behind them, however it is cut. -/
theorem header_never_counts {s₁ s₂ : Socket} {side₁ side₂ : Side} {k₁ k₂ : Nat} {header₁ header₂ buffered : Bytes}
    (h₁ : HeaderRead s₁ side₁ k₁ header₁ buffered) (h₂ : HeaderRead s₂ side₂ k₂ header₂ buffered)
    (class_eq : identifyBody header₁ = identifyBody header₂)
    (length_eq : identifyBody header₁ = .contentLength →
      (parseField header₁ (ascii "content-length") >>= stoul) = (parseField header₂ (ascii "content-length") >>= stoul))
    (segments : List Bytes) :
    s₁.decision side₁ k₁ header₁ segments = s₂.decision side₂ k₂ header₂ segments := by
  rw [decision_eq h₁, decision_eq h₂]
  cases hb : identifyBody header₁ with
  | contentLength => rw [← class_eq, hb, length_eq hb]
  | chunked => rw [← class_eq, hb]; rfl
  | none => rw [← class_eq, hb]; rfl

/-- A header that ends in what looks like the end of the chunks. -/
def agedHeader : Bytes := ascii "POST / HTTP/1.1\r\nHost: a.com\r\nTransfer-Encoding: chunked\r\nAge: 0\r\n\r\n"

theorem header_never_counts_aged :
    (firstRequest (agedHeader ++ ascii "3\r\n") (ascii "a.com")).decision .client 0 agedHeader
        [ascii "abc\r\n", ascii "0\r\n\r\n"] = some (1, ascii "abc\r\n0\r\n\r\n") := by
  have arrived := firstRequest_headerRead chunkedHeader (ascii "3\r\n") (ascii "a.com")
  have plain : (firstRequest (chunkedHeader ++ ascii "3\r\n") (ascii "a.com")).decision .client 0 chunkedHeader
      [ascii "abc\r\n", ascii "0\r\n\r\n"] = some (1, ascii "abc\r\n0\r\n\r\n") := by
    rw [decision_eq arrived]
    decide +kernel
  have same := header_never_counts (firstRequest_headerRead agedHeader (ascii "3\r\n") (ascii "a.com")) arrived
    (by decide +kernel) (by decide +kernel) [ascii "abc\r\n", ascii "0\r\n\r\n"]
  exact same.trans plain

/-! ### Chunks -/

/-- The callback is run, once. -/
def Socket.CallsBack (s : Socket) (side : Side) (k : Nat) (header : Bytes) (segments : List Bytes) : Prop :=
  ∃ httpBody, s.decision side k header segments = some (1, httpBody)

/-- One search sees what came with the header, the other one what comes after it. -/
theorem callsBack_chunked_iff {s : Socket} {side : Side} {k : Nat} {header buffered : Bytes}
    (h : HeaderRead s side k header buffered) (hb : identifyBody header = .chunked) (segments : List Bytes) :
    s.CallsBack side k header segments ↔ lastChunk <:+: buffered ∨ lastChunk <:+: segments.flatten := by
  rw [Socket.CallsBack, decision_eq h, hb, verdict]
  split
  · rename_i hf
    exact iff_of_true ⟨[], rfl⟩ (Or.inl (find?_isSome_iff.mp hf))
  · rename_i hf
    have later := feed_chunked [] segments
    rw [List.nil_append] at later
    rw [or_iff_right fun hin => hf (find?_isSome_iff.mpr hin), ← later]
    cases bodyDone none (feed none [] segments) <;> simp

/-- The two searches decide as one search of the whole stream does exactly when no cut between what came with the
    header and what comes after it hides the only terminator. -/
theorem chunked_searches_agree {s : Socket} {side : Side} {k : Nat} {header buffered : Bytes}
    (h : HeaderRead s side k header buffered) (hb : identifyBody header = .chunked) (segments : List Bytes) :
    (s.CallsBack side k header segments ↔ lastChunk <:+: buffered ++ segments.flatten) ↔
      (lastChunk <:+: buffered ++ segments.flatten → lastChunk <:+: buffered ∨ lastChunk <:+: segments.flatten) := by
  rw [callsBack_chunked_iff h hb]
  refine ⟨fun hiff => hiff.mpr, fun hcut => ⟨?_, hcut⟩⟩
  rintro (hin | hin)
  · exact hin.trans (List.prefix_append _ _).isInfix
  · exact hin.trans (List.suffix_append _ _).isInfix

theorem chunked_searches_agree_sample :
    (firstRequest (chunkedHeader ++ ascii "3\r\nabc\r\n") (ascii "a.com")).CallsBack .client 0 chunkedHeader
      [ascii "0\r\n", ascii "\r\n"] := by
  have arrived := firstRequest_headerRead chunkedHeader (ascii "3\r\nabc\r\n") (ascii "a.com")
  have after : lastChunk <:+: [ascii "0\r\n", ascii "\r\n"].flatten := by decide +kernel
  have agree := (chunked_searches_agree arrived (by decide +kernel) _).mpr fun _ => Or.inr after
  exact agree.mpr (by decide +kernel)

/-- The terminator is cut between what came with the header and the segment after it. -/
theorem terminator_cut : ¬∀ (s : Socket) (side : Side) (k : Nat) (header buffered : Bytes) (segments : List Bytes),
    HeaderRead s side k header buffered → identifyBody header = .chunked →
      (s.CallsBack side k header segments ↔ lastChunk <:+: buffered ++ segments.flatten) := by
  intro h
  have arrived := firstRequest_headerRead chunkedHeader (ascii "3\r\nabc\r\n0\r\n") (ascii "a.com")
  have chunked : identifyBody chunkedHeader = .chunked := by decide +kernel
  have called := (h _ .client 0 _ _ [ascii "\r\n"] arrived chunked).mpr (by decide +kernel)
  rcases (callsBack_chunked_iff arrived chunked _).mp called with hin | hin <;> exact absurd hin (by decide +kernel)

/-- A body in chunks that its first terminator ends is read to its end and no further, when what came with the header
    ends before the terminator. -/
theorem callsBack_plain_iff {s : Socket} {side : Side} {k : Nat} {header buffered : Bytes} {segments : List Bytes}
    {chunks : List Http.Chunk} {last : Http.LastChunk} (h : HeaderRead s side k header buffered)
    (hb : identifyBody header = .chunked) (plain : ∀ c ∈ chunks, c.Plain) (zero : last.EndsInZero)
    (arrived : buffered ++ segments.flatten <+: (Http.Payload.chunked chunks last).render)
    (before : buffered.length + lastChunk.length ≤ (Http.Payload.chunked chunks last).render.length) :
    s.CallsBack side k header segments ↔ buffered ++ segments.flatten = (Http.Payload.chunked chunks last).render := by
  have recognised := (recognised_chunked_iff header chunks last).mpr ⟨hb, plain, zero⟩
  obtain ⟨-, later⟩ := chunksEnd_of_recognised recognised arrived before
  have early : ¬lastChunk <:+: buffered := by
    intro hin
    obtain ⟨-, n, hn, hend⟩ := recognised
    have whole := (found_iff_whole hn hend ((List.prefix_append _ _).trans arrived)).mp (find?_isSome_iff.mpr hin)
    have five : lastChunk.length = 5 := rfl
    omega
  rw [callsBack_chunked_iff h hb, or_iff_right early, ← find?_isSome_iff, later]
  constructor
  · intro hlen
    refine arrived.eq_of_length ?_
    simp only [List.length_append] at hlen ⊢
    omega
  · intro heq
    rw [← heq]
    simp only [List.length_append, Nat.add_assoc]

/-! ### Lengths -/

/-- The body of `n` bytes is read exactly: the size of the buffer is what is missing of it, and over any segments the
    callback is run, once, when all of it has arrived, with the message in front of the string and no byte taken
    that is behind both the body and what came with the header. -/
structure ReadsExactly (s : Socket) (side : Side) (k : Nat) (header buffered : Bytes) (n : Nat) : Prop where
  room : (subSize n (subSize (s.message side k).length header.length) : Int) =
    n - ((s.message side k).length - header.length)
  reads : ∀ segments : List Bytes, ∃ t, s.bodyOver side k header segments = some t ∧
    callbacks side k t = callbacks side k s + (if n ≤ (buffered ++ segments.flatten).length then 1 else 0) ∧
    (n ≤ (buffered ++ segments.flatten).length →
      (t.message side k).take (header.length + n) = header ++ (buffered ++ segments.flatten).take n) ∧
    ∃ httpBody, taken side t.trace = taken side s.trace ++ httpBody ∧ httpBody <+: segments.flatten ∧
      (buffered ++ httpBody).length ≤ max buffered.length n

section Sized
variable {s : Socket} {side : Side} {k n : Nat} {header buffered : Bytes}

/-- The size of the buffer is what is missing of the body. -/
theorem room_of_le (h : HeaderRead s side k header buffered) (hlt : n < sizeMod) (hle : buffered.length ≤ n) :
    subSize n (subSize (s.message side k).length header.length) = n - buffered.length := by
  rw [h.held, subSize_header]
  exact subSize_of_le hle (by omega)

theorem done_iff_arrived {rest : Bytes} (hle : buffered.length ≤ n) :
    bodyDone (some (n - buffered.length)) (rest.take (n - buffered.length)) = true ↔ n ≤ (buffered ++ rest).length := by
  simp only [bodyDone, List.length_take, List.length_append, beq_iff_eq]
  omega

/-- What is missing of the body is read, and nothing else. -/
theorem bodyOver_sized (h : HeaderRead s side k header buffered) (hb : identifyBody header = .contentLength)
    (hn : (parseField header (ascii "content-length") >>= stoul) = .ok n) (hlt : n < sizeMod)
    (hle : buffered.length ≤ n) (segments : List Bytes) : ∃ t, s.bodyOver side k header segments = some t ∧
      Come s t side k (some (n - buffered.length)) (segments.flatten.take (n - buffered.length)) := by
  have hr := readBody_sized side k h.running hb hn
  rw [room_of_le h hlt hle] at hr
  obtain ⟨t, ht, come⟩ := bodyOver_reads h hr (by simp) segments
  rw [feed_sized (Nat.zero_le _), List.nil_append] at come
  exact ⟨t, ht, come⟩

/-- A body is read exactly when what came with the header is not more than the body. -/
theorem sized_reads_exactly (h : HeaderRead s side k header buffered) (hb : identifyBody header = .contentLength)
    (hn : (parseField header (ascii "content-length") >>= stoul) = .ok n) :
    ReadsExactly s side k header buffered n ↔ buffered.length ≤ n := by
  obtain ⟨value, -, hs⟩ := bind_eq_ok.mp hn
  have hlt := stoul_lt hs
  constructor
  · intro hr
    have room := hr.room
    rw [h.held, List.length_append] at room
    omega
  · intro hle
    refine ⟨?_, fun segments => ?_⟩
    · rw [room_of_le h hlt hle, h.held, List.length_append]
      omega
    · obtain ⟨t, ht, come⟩ := bodyOver_sized h hb hn hlt hle segments
      have whole : buffered ++ segments.flatten.take (n - buffered.length) = (buffered ++ segments.flatten).take n := by
        rw [List.take_append, List.take_of_length_le hle]
      have short : (buffered ++ segments.flatten.take (n - buffered.length)).length ≤ max buffered.length n := by
        rw [whole]
        exact (List.length_take_le _ _).trans (Nat.le_max_right _ _)
      unfold Come at come
      split at come
      · rename_i hd
        have full := (done_iff_arrived hle).mp hd
        refine ⟨t, ht, by rw [come.callbacks, if_pos full], fun _ => ?_, _, come.taken, List.take_prefix _ _, short⟩
        have hlen : header.length + n = (header ++ (buffered ++ segments.flatten).take n).length := by
          rw [List.length_append, List.length_take_of_le full]
        rw [come.message, h.held, List.append_assoc, whole, hlen, List.take_length]
      · rename_i hd
        have missed := mt (done_iff_arrived hle).mpr hd
        refine ⟨t, ht, ?_, fun full => absurd full missed, _, come.taken, List.take_prefix _ _, short⟩
        rw [come.callbacks, if_neg missed, Nat.add_zero]

end Sized

def sizedHeader : Bytes := ascii "POST / HTTP/1.1\r\nHost: a.com\r\nContent-Length: 3\r\n\r\n"

theorem sized_reads_exactly_sample :
    ReadsExactly (firstRequest (sizedHeader ++ ascii "ab") (ascii "a.com")) .client 0 sizedHeader (ascii "ab") 3 := by
  have arrived := firstRequest_headerRead sizedHeader (ascii "ab") (ascii "a.com")
  exact (sized_reads_exactly arrived (by decide +kernel) (by decide +kernel)).mpr (by decide +kernel)

/-- One byte of the next message has come with the body. -/
def burst : Socket := firstRequest (sizedHeader ++ ascii "abcG") (ascii "a.com")

/-- The size of the buffer wraps around, and the callback is not run. -/
theorem size_wraps : HeaderRead burst .client 0 sizedHeader (ascii "abcG") ∧
    identifyBody sizedHeader = .contentLength ∧
    (parseField sizedHeader (ascii "content-length") >>= stoul) = .ok 3 ∧
    burst.decision .client 0 sizedHeader [] = some (0, []) ∧
    ¬ReadsExactly burst .client 0 sizedHeader (ascii "abcG") 3 := by
  have arrived := firstRequest_headerRead sizedHeader (ascii "abcG") (ascii "a.com")
  refine ⟨arrived, by decide +kernel, by decide +kernel, ?_, fun h => ?_⟩
  · rw [burst, decision_eq arrived]
    decide +kernel
  · have room := h.room
    exact absurd room (by decide +kernel)

end HttpProxy
