import HttpProxy.Theorems.Chain

/-! Connection reuse. While a request is read, an open server socket is connected to an endpoint that the
    resolver found for `prev_host`; from the write of the request on, it is connected to one found for
    `curr_host`, the host of that same request. `resolve_server` may skip the resolver for this reason. -/

namespace HttpProxy
open Socket

/-- An entry came from a resolution of its host name. -/
def Resolved (log : List Action) (entry : Entry) : Prop :=
  ∃ entries, .resolved entry.hostName entries ∈ log ∧ entry ∈ entries

/-- The server socket is connected to an endpoint found for a host. -/
def ConnectedTo (s : Socket) (host : Bytes) : Prop :=
  ∃ entry, s.serverSocket = .connected entry ∧ entry.hostName = host ∧ Resolved s.trace entry

/-- `curr_host` is the host that `parse_field` found in request `k`. -/
def Named (s : Socket) (k : Nat) : Prop :=
  ∃ request, .host k request s.currHost ∈ s.trace ∧ parseField request (ascii "host") = .ok s.currHost ∧
    request <+: s.message .client k

/-- Where a session is while an operation is outstanding. -/
def Op.Routed (s : Socket) : Op → Prop
  | readHeader .client _ => s.serverSocket.isOpen = true → ConnectedTo s s.prevHost
  | readBody .client k _ _ => (s.serverSocket.isOpen = true → ConnectedTo s s.prevHost) ∧ Named s k
  | resolve k host => Named s k ∧ host = s.currHost
  | connect k entries => Named s k ∧ (∀ entry ∈ entries, entry.hostName = s.currHost ∧ Resolved s.trace entry) ∧
    (entries ≠ [] → s.serverSocket.isOpen = true)
  | readHeader .server k | write _ k _ => Named s k ∧ ConnectedTo s s.currHost
  | readBody .server k _ _ => (Named s k ∧ ConnectedTo s s.currHost) ∧ s.message .server k ≠ []

/-- A resolution whose completion is queued is on the log, and a connection to no endpoint at all has failed. -/
def Outstanding.Logged (log : List Action) : Outstanding → Prop
  | ⟨.resolve _ host, some (.success _ endpoints)⟩ =>
    .resolved host (endpoints.map fun e => ⟨e, host, ascii "http"⟩) ∈ log
  | ⟨.connect _ [], completion⟩ => ∃ ec, completion = some (.failure ec)
  | _ => True

def Routes (s : Socket) : Prop := ∀ o ∈ s.outstanding, o.op.Routed s ∧ o.Logged s.trace

section Frame
variable {s t : Socket} {k : Nat} {host : Bytes}

theorem ConnectedTo.mono (h : ConnectedTo s host) (hs : t.serverSocket = s.serverSocket) (ht : s.trace ⊆ t.trace) :
    ConnectedTo t host := by
  obtain ⟨entry, hc, hn, entries, hr, he⟩ := h
  exact ⟨entry, hs.trans hc, hn, entries, ht hr, he⟩

theorem Named.mono (h : Named s k) (hc : t.currHost = s.currHost) (ht : s.trace ⊆ t.trace)
    (hm : s.message .client k <+: t.message .client k) : Named t k := by
  obtain ⟨request, hlog, hp, hpre⟩ := h
  exact ⟨request, hc ▸ ht hlog, hc ▸ hp, hpre.trans hm⟩

/-- What routing speaks of stays when the hosts and the server socket stay and the log and the request grow. -/
theorem Op.Routed.mono {op : Op} (h : op.Routed s) (hs : t.serverSocket = s.serverSocket)
    (hp : t.prevHost = s.prevHost) (hc : t.currHost = s.currHost) (ht : s.trace ⊆ t.trace)
    (hm : ∀ side k, s.message side k <+: t.message side k) : op.Routed t := by
  have link : (s.serverSocket.isOpen = true → ConnectedTo s s.prevHost) →
      t.serverSocket.isOpen = true → ConnectedTo t t.prevHost := fun hl ho => by
    rw [hp]
    exact (hl (hs ▸ ho)).mono hs ht
  have onward : ∀ {k}, Named s k ∧ ConnectedTo s s.currHost → Named t k ∧ ConnectedTo t t.currHost :=
    fun ⟨hn, hr⟩ => ⟨hn.mono hc ht (hm .client _), by rw [hc]; exact hr.mono hs ht⟩
  cases op with
  | readHeader side k =>
    cases side
    · exact link h
    · exact onward h
  | readBody side k limit httpBody =>
    cases side
    · exact ⟨link h.1, h.2.mono hc ht (hm .client k)⟩
    · refine ⟨onward h.1, fun hnil => h.2 ?_⟩
      have hpre := hm .server k
      rw [hnil] at hpre
      exact List.prefix_nil.mp hpre
  | resolve k host => exact ⟨h.1.mono hc ht (hm .client k), h.2.trans hc.symm⟩
  | connect k entries =>
    obtain ⟨hn, he, ho⟩ := h
    refine ⟨hn.mono hc ht (hm .client k), fun entry hmem => ?_, fun hne => ?_⟩
    · obtain ⟨hname, entries', hr, hin⟩ := he entry hmem
      exact ⟨hname.trans hc.symm, entries', ht hr, hin⟩
    · rw [hs]
      exact ho hne
  | write side k rest => exact onward h

theorem message_prefix_append (side : Side) (k : Nat) (data : Bytes) (side' : Side) (k' : Nat) :
    s.message side' k' <+: (s.append side k data).message side' k' := by
  by_cases hk : k = k'
  · subst hk
    by_cases hs : side' = side
    · subst hs
      by_cases hlt : k < s.messages.length
      · rw [message_append hlt]
        exact List.prefix_append _ _
      · simp [message, List.getD_eq_getElem?_getD, hlt]
    · rw [message_append_of_ne hs]
  · simp [message, List.getD_eq_getElem?_getD, hk]

theorem Routes.of_nil (h : s.outstanding = []) : Routes s := fun o ho => by rw [h] at ho; cases ho

end Frame

/-! ### The handlers -/

namespace Socket
variable {s t : Socket} {k : Nat} {side : Side}

/-- What `read_body` and its callback rely on, for the request and for the reply. -/
def BodyRouted (s : Socket) (side : Side) (k : Nat) : Prop := (Op.readBody side k none []).Routed s

theorem routes_startOp (hi : s.outstanding = []) (op : Op) {q : Option Completion} (h : op.Routed s)
    (hq : ∀ log, Outstanding.Logged log ⟨op, q⟩) : Routes (s.startOp op q) := fun o ho => by
  rw [mem_startOp hi ho]
  exact ⟨h.mono rfl rfl rfl (List.subset_cons_self _ _) fun _ _ => List.prefix_refl _, hq _⟩

theorem routes_again (hi : s.outstanding = []) (op : Op) (h : op.Routed s)
    (hq : Outstanding.Logged s.trace ⟨op, none⟩) : Routes (s.again op) := fun o ho => by
  rw [mem_again hi ho]
  exact ⟨h.mono rfl rfl rfl (List.Subset.refl _) fun _ _ => List.prefix_refl _, hq⟩

theorem routes_close (hi : s.outstanding = []) : Routes s.close := .of_nil (close_outstanding_nil hi)

theorem routes_sendMessageToServer (hi : s.outstanding = []) (hn : Named s k) (hc : ConnectedTo s s.currHost) :
    Routes (s.sendMessageToServer k) :=
  routes_startOp hi (.write .server k (s.message .client k)) ⟨hn, hc⟩ fun _ => trivial

theorem routes_callback (hi : s.outstanding = []) (h : s.BodyRouted side k) : Routes (s.callback side k) := by
  cases side with
  | client =>
    obtain ⟨hl, hn⟩ := h
    rcases callback_client_cases s k with hr | ⟨ho, heq, hr⟩ <;> rw [hr]
    · exact routes_startOp hi _ ⟨hn, rfl⟩ fun _ => trivial
    · -- The shortcut: the open connection was made for the host of this request.
      exact routes_sendMessageToServer hi hn (heq ▸ hl ho)
  | server => exact routes_startOp hi (.write .client k (s.message .server k)) h.1 fun _ => trivial

theorem routes_readBody (hi : s.outstanding = []) (side : Side) (h : s.BodyRouted side k) {header : Bytes}
    (hb : s.readBody side k header = .ok t) : Routes t := by
  rcases readBody_cases hb with ⟨-, rfl⟩ | ⟨-, rfl⟩ | ⟨-, limit, q, rfl, -⟩
  · exact .of_nil hi
  · exact routes_callback hi h
  · exact routes_startOp hi _ (by cases side <;> exact h) fun _ => trivial

theorem routes_headerHandler (hi : s.outstanding = []) (h : (Op.readHeader side k).Routed s) {ec : Option ErrorCode}
    (hm : ec = none → s.message side k ≠ []) {len : Nat} (hh : s.headerHandler side k ec len = .ok t) : Routes t := by
  cases side with
  | client =>
    rcases clientHeaderHandler_cases hh with ⟨rfl, -⟩ | ⟨rfl, -, -⟩ | ⟨-, -, -, host, hhost, hb⟩
    · exact .of_nil hi
    · exact routes_close (s := s.cancelTimer) hi
    · refine routes_readBody (k := k) (s := { s.cancelTimer with currHost := host }.log
        (.host k (s.message .client k) host)) hi .client ⟨fun ho => ?_, ?_⟩ hb
      · exact (h ho).mono rfl (List.subset_cons_self _ _)
      · exact ⟨_, List.mem_cons_self, hhost, List.prefix_refl _⟩
  | server =>
    rcases serverHeaderHandler_cases hh with ⟨rfl, -⟩ | ⟨rfl, -, -⟩ | ⟨-, hec, hb⟩
    · exact .of_nil hi
    · exact routes_close hi
    · exact routes_readBody hi .server ⟨h, hm hec⟩ hb

theorem routes_sharedHandler (hi : s.outstanding = []) (h : s.BodyRouted side k) {httpBody : Bytes}
    {ec : Option ErrorCode} (hh : s.sharedHandler side k httpBody ec = .ok t) : Routes t := by
  have h' : (s.append side k httpBody).BodyRouted side k :=
    h.mono rfl rfl rfl (List.Subset.refl _) (message_prefix_append side k httpBody)
  rcases sharedHandler_cases hh with ⟨-, rfl⟩ | ⟨-, rfl⟩
  · exact routes_callback hi h'
  · exact .of_nil hi

theorem routes_writeHandler (hi : s.outstanding = []) (hn : Named s k) (hc : ConnectedTo s s.currHost)
    {ec : Option ErrorCode} (hh : s.writeHandler side k ec = .ok t) : Routes t := by
  rcases writeHandler_cases hh with ⟨-, rfl⟩ | ⟨-, -, ⟨rfl, rfl⟩ | ⟨rfl, rfl⟩⟩
  · exact .of_nil hi
  · -- From here on `prev_host` is the host that the server was reached under.
    exact routes_startOp (s := { s with prevHost := s.currHost, messages := s.messages ++ [([], [])] })
      hi (.readHeader .client _) (fun _ => hc.mono rfl (List.Subset.refl _)) fun _ => trivial
  · exact routes_startOp hi (.readHeader .server k) ⟨hn, hc⟩ fun _ => trivial

theorem routes_connectHandler (hi : s.outstanding = []) (hn : Named s k) {ec : Option ErrorCode}
    (hc : ec = none → ConnectedTo s s.currHost) : Routes (s.connectHandler k ec) := by
  rcases connectHandler_cases s k ec with ⟨hr, -⟩ | hr | ⟨-, hec, hr⟩ <;> rw [hr]
  · exact .of_nil hi
  · exact routes_close hi
  · exact routes_sendMessageToServer hi hn (hc hec)

theorem routes_resolveHandler (hi : s.outstanding = []) (hn : Named s k) {ec : Option ErrorCode} {entries : List Entry}
    (he : ∀ entry ∈ entries, entry.hostName = s.currHost ∧ Resolved s.trace entry) :
    Routes (s.resolveHandler k ec entries) := by
  rcases resolveHandler_cases s k ec entries with
    ⟨hr, -⟩ | hr | ⟨-, -, hr⟩ <;> rw [hr]
  · exact .of_nil hi
  · exact routes_close hi
  · cases entries with
    | nil => exact routes_startOp hi (.connect k []) ⟨hn, nofun, nofun⟩ fun _ => ⟨_, rfl⟩
    | cons entry rest =>
      exact routes_startOp (s := { s with serverSocket := .opened }) hi (.connect k (entry :: rest))
        ⟨hn, he, fun _ => rfl⟩ fun _ => trivial

theorem routes_resume {op : Op} {c : Completion} (hi : s.outstanding = []) (h : op.Routed s)
    (hl : Outstanding.Logged s.trace ⟨op, some c⟩) (hr : s.resume op c = .ok t) : Routes t := by
  have finished : ∀ (op' : Op) (ec : Option ErrorCode) {op'' : Op}, op''.Routed s → op''.Routed (s.finish op' ec) :=
    fun op' ec op'' hrt => hrt.mono rfl rfl rfl (List.subset_cons_self _ _) fun _ _ => List.prefix_refl _
  cases op with
  | readHeader side k =>
    cases c with
    | success data endpoints =>
      have h' : (Op.readHeader side k).Routed (s.append side k data) :=
        h.mono rfl rfl rfl (List.Subset.refl _) (message_prefix_append side k data)
      simp only [resume] at hr
      split at hr
      · rename_i pos hpos
        have hne : (s.append side k data).message side k ≠ [] := fun hnil => by
          rw [hnil] at hpos
          cases hpos
        exact routes_headerHandler (s := (s.append side k data).finish _ none) hi
          (h'.mono rfl rfl rfl (List.subset_cons_self _ _) fun _ _ => List.prefix_refl _) (fun _ => hne) hr
      · rw [← Except.ok.inj hr]
        exact routes_again (s := s.append side k data) hi _ h' trivial
    | failure ec => exact routes_headerHandler (s := s.finish _ (some ec)) hi (finished _ _ h) (by simp) hr
  | readBody side k limit httpBody =>
    have hb : s.BodyRouted side k := by cases side <;> exact h
    cases c with
    | success data endpoints =>
      simp only [resume] at hr
      split at hr
      · exact routes_sharedHandler (s := s.finish _ none) hi (finished _ _ hb) hr
      · rw [← Except.ok.inj hr]
        exact routes_again hi _ (by cases side <;> exact h) trivial
    | failure ec => exact routes_sharedHandler (s := s.finish _ (some ec)) hi (finished _ _ hb) hr
  | resolve k host =>
    obtain ⟨hn, rfl⟩ := h
    cases c with
    | success data endpoints =>
      rw [← Except.ok.inj hr]
      refine routes_resolveHandler (s := s.finish _ none) hi
        (hn.mono rfl (List.subset_cons_self _ _) (List.prefix_refl _)) fun entry he => ?_
      obtain ⟨e, -, rfl⟩ := List.mem_map.mp he
      exact ⟨rfl, _, List.mem_cons_of_mem _ hl, he⟩
    | failure ec =>
      rw [← Except.ok.inj hr]
      exact routes_resolveHandler (s := s.finish _ (some ec)) hi
        (hn.mono rfl (List.subset_cons_self _ _) (List.prefix_refl _)) fun _ he => absurd he List.not_mem_nil
  | connect k entries =>
    obtain ⟨hn, he, -⟩ := h
    cases c with
    | success data endpoints =>
      cases entries with
      | nil =>
        obtain ⟨ec, hec⟩ := hl
        cases hec
      | cons entry rest =>
        rw [← Except.ok.inj hr]
        obtain ⟨hname, entries', hr', hmem⟩ := he entry List.mem_cons_self
        exact routes_connectHandler (s := { s with serverSocket := .connected entry }.finish _ none) hi
          (hn.mono rfl (List.subset_cons_self _ _) (List.prefix_refl _))
          fun _ => ⟨entry, rfl, hname, entries', List.mem_cons_of_mem _ hr', hmem⟩
    | failure ec =>
      rcases entries with _ | ⟨entry, _ | ⟨next, rest⟩⟩ <;> rw [← Except.ok.inj hr]
      · exact routes_connectHandler (s := s.finish _ (some ec)) hi
          (hn.mono rfl (List.subset_cons_self _ _) (List.prefix_refl _)) fun he => by cases he
      · exact routes_connectHandler (s := s.finish _ (some ec)) hi
          (hn.mono rfl (List.subset_cons_self _ _) (List.prefix_refl _)) fun he => by cases he
      · exact routes_again (s := { s with serverSocket := .opened }) hi (.connect k (next :: rest))
          ⟨hn, fun entry he' => he entry (List.mem_cons_of_mem _ he'), fun _ => rfl⟩ trivial
  | write side k rest =>
    obtain ⟨hn, hc⟩ := h
    have hn' : ∀ op' ec, Named (s.finish op' ec) k := fun _ _ =>
      hn.mono rfl (List.subset_cons_self _ _) (List.prefix_refl _)
    have hc' : ∀ op' ec, ConnectedTo (s.finish op' ec) s.currHost := fun _ _ =>
      hc.mono rfl (List.subset_cons_self _ _)
    cases c with
    | success data endpoints =>
      simp only [resume] at hr
      split at hr
      · exact routes_writeHandler (s := s.finish _ none) hi (hn' _ _) (hc' _ _) hr
      · rw [← Except.ok.inj hr]
        exact routes_again hi (.write side k (rest.drop data.length)) ⟨hn, hc⟩ trivial
    | failure ec => exact routes_writeHandler (s := s.finish _ (some ec)) hi (hn' _ _) (hc' _ _) hr

end Socket

/-! ### Runs -/

namespace Routes
variable {s t : Socket}

/-- A change that keeps the hosts, the server socket and the requests, and only adds to the log. -/
theorem frame (h : Routes s) {f : Outstanding → Outstanding}
    (hf : ∀ o, (f o).op = o.op ∧ (o.Logged s.trace → (f o).Logged t.trace)) (ho : t.outstanding = s.outstanding.map f)
    (hs : t.serverSocket = s.serverSocket) (hp : t.prevHost = s.prevHost) (hc : t.currHost = s.currHost)
    (hm : t.messages = s.messages) (ht : s.trace ⊆ t.trace) : Routes t := fun o' ho' => by
  rw [ho] at ho'
  obtain ⟨o, hmem, rfl⟩ := List.mem_map.mp ho'
  obtain ⟨hr, hl⟩ := h o hmem
  rw [(hf o).1]
  exact ⟨hr.mono hs hp hc ht fun side k => by rw [Socket.message_congr hm], (hf o).2 hl⟩

theorem quiet (h : Routes s) (ho : t.outstanding = s.outstanding) (hs : t.serverSocket = s.serverSocket)
    (hp : t.prevHost = s.prevHost) (hc : t.currHost = s.currHost) (hm : t.messages = s.messages)
    (ht : t.trace = s.trace) : Routes t :=
  h.frame (f := id) (fun _ => ⟨rfl, fun hl => ht ▸ hl⟩) (by rw [ho, List.map_id]) hs hp hc hm fun _ ha => ht ▸ ha

/-- An abort is no success, and a longer log still holds what it held. -/
theorem logged_closing {o : Outstanding} {log : List Action} (h : o.Logged s.trace) (hl : s.trace ⊆ log) :
    (s.closing o).Logged log := by
  obtain ⟨op, q⟩ := o
  rw [Socket.closing_eq]
  rcases Socket.closing_completion s ⟨op, q⟩ with hq | ⟨-, hq⟩ <;> rw [hq]
  · cases op with
    | resolve k host =>
      rcases q with _ | ⟨data, endpoints⟩ | ec
      · trivial
      · exact hl h
      · trivial
    | connect k entries =>
      cases entries with
      | nil => exact h
      | cons => trivial
    | readHeader | readBody | write => trivial
  · cases op with
    | connect k entries =>
      cases entries with
      | nil => exact ⟨_, rfl⟩
      | cons => trivial
    | readHeader | readBody | resolve | write => trivial

theorem close (h : Routes s) : Routes s.close := by
  cases hs : s.stopped
  · refine h.frame (f := s.closing) (fun o => ⟨Socket.closing_op, fun hl => logged_closing hl ?_⟩) ?_
      Socket.close_serverSocket Socket.close_prevHost Socket.close_currHost Socket.close_messages ?_ <;>
      rw [Socket.close_of_not_stopped hs]
    · exact List.subset_cons_self _ _
    · exact List.subset_cons_self _ _
  · rw [Socket.close_of_stopped hs]
    exact h

theorem logged_cons {o : Outstanding} {a : Action} {log : List Action} (h : o.Logged log) : o.Logged (a :: log) := by
  obtain ⟨op, q⟩ := o
  cases op with
  | resolve k host =>
    rcases q with _ | ⟨data, endpoints⟩ | ec
    · trivial
    · exact List.mem_cons_of_mem _ h
    · trivial
  | connect k entries => cases entries <;> exact h
  | readHeader | readBody | write => trivial

theorem log (h : Routes s) (a : Action) : Routes (s.log a) :=
  h.frame (f := id) (fun _ => ⟨rfl, logged_cons⟩) (List.map_id _).symm rfl rfl rfl rfl (List.subset_cons_self _ _)

theorem handleWait (h : Routes s) (ec : Option ErrorCode) : Routes (s.handleWait ec) := by
  rcases Socket.handleWait_cases s ec with hw | ⟨-, -, hw⟩ | ⟨-, -, hw⟩ <;> rw [hw]
  · exact h
  · exact (h.log _).close
  · exact (h.log .wait).quiet rfl rfl rfl rfl rfl rfl

theorem io {op : Op} {c : Completion} (h : Routes s) (ho : s.outstanding = [⟨op, none⟩]) (hc : op.allows c = true) :
    Routes { s with outstanding := [⟨op, some c⟩], trace := op.shows c ++ s.trace } := fun o ho' => by
  obtain ⟨hr, hl⟩ := h ⟨op, none⟩ (ho ▸ List.mem_singleton_self _)
  rw [List.mem_singleton.mp ho']
  refine ⟨hr.mono rfl rfl rfl (List.subset_append_right _ _) fun _ _ => List.prefix_refl _, ?_⟩
  cases op with
  | resolve k host =>
    cases c with
    | success data endpoints => exact List.mem_cons_self
    | failure ec => trivial
  | connect k entries =>
    cases entries with
    | nil =>
      obtain ⟨ec, hec⟩ := hl
      cases hec
    | cons => trivial
  | readHeader | readBody | write => trivial

theorem step {e : Event} (h : Routes s) (c : Chain s) (hs : session.Step s e t) : Routes t := by
  cases c.move hs with
  | io ho hc => exact h.io ho hc
  | dispatch ho hr =>
    obtain ⟨hop, hl⟩ := h _ (ho ▸ List.mem_singleton_self _)
    exact Socket.routes_resume (s := { s with outstanding := [] }) rfl
      (hop.mono rfl rfl rfl (List.Subset.refl _) fun _ _ => List.prefix_refl _) hl hr
  | close => exact h.close
  | @wait ec queue =>
    exact (h.quiet (t := { s with timer := { s.timer with queue := queue } }) rfl rfl rfl rfl rfl rfl).handleWait ec
  | expire => exact h.quiet rfl rfl rfl rfl rfl rfl
  | elapse d => exact h.quiet rfl rfl rfl rfl rfl rfl
  | disconnect => exact h.quiet rfl rfl rfl rfl rfl rfl

end Routes

theorem start_routes (now : Nat) : Routes (Socket.new now).start := fun o ho => by
  rw [List.mem_singleton.mp ho]
  exact ⟨nofun, trivial⟩

theorem reachable_routes {s : Socket} (h : session.Reachable s) : Routes s :=
  h.invariant (fun _ ⟨now, hs⟩ => hs ▸ start_routes now) fun _ _ _ hr ht hs => ht.step (reachable_chain hr) hs

/-! ### The shortcut -/

namespace Socket
variable {s t : Socket} {side : Side} {k : Nat}

theorem callback_serverSocket : (s.callback side k).serverSocket = s.serverSocket := by
  cases side
  · rcases callback_client_cases s k with h | ⟨-, -, h⟩ <;> rw [h] <;> rfl
  · rfl

theorem readBody_serverSocket {header : Bytes} (h : s.readBody side k header = .ok t) :
    t.serverSocket = s.serverSocket := by
  rcases readBody_cases h with ⟨-, rfl⟩ | ⟨-, rfl⟩ | ⟨-, limit, q, rfl, -⟩
  · rfl
  · exact callback_serverSocket
  · rfl

theorem headerHandler_serverSocket {ec : Option ErrorCode} {n : Nat} (h : s.headerHandler side k ec n = .ok t) :
    t.serverSocket = s.serverSocket := by
  cases side
  · rcases clientHeaderHandler_cases h with ⟨rfl, -⟩ | ⟨rfl, -, -⟩ | ⟨-, -, -, host, -, hb⟩
    · rfl
    · exact close_serverSocket
    · exact (readBody_serverSocket (s := log _ _) hb).trans rfl
  · rcases serverHeaderHandler_cases h with ⟨rfl, -⟩ | ⟨rfl, -, -⟩ | ⟨-, -, hb⟩
    · rfl
    · exact close_serverSocket
    · exact readBody_serverSocket hb

theorem sharedHandler_serverSocket {httpBody : Bytes} {ec : Option ErrorCode}
    (h : s.sharedHandler side k httpBody ec = .ok t) : t.serverSocket = s.serverSocket := by
  rcases sharedHandler_cases h with ⟨-, rfl⟩ | ⟨-, rfl⟩
  · exact callback_serverSocket
  · rfl

/-- The end of a read leaves the server socket as it is, whatever its handler does. -/
theorem resume_serverSocket {op : Op} {c : Completion} (hop : op.reads side = true) (h : s.resume op c = .ok t) :
    t.serverSocket = s.serverSocket := by
  cases op with
  | readHeader side' k =>
    cases c with
    | success data endpoints =>
      simp only [resume] at h
      split at h
      · exact (headerHandler_serverSocket h).trans rfl
      · rw [← Except.ok.inj h]
        rfl
    | failure ec => exact (headerHandler_serverSocket h).trans rfl
  | readBody side' k limit httpBody =>
    cases c with
    | success data endpoints =>
      simp only [resume] at h
      split at h
      · exact (sharedHandler_serverSocket h).trans rfl
      · rw [← Except.ok.inj h]
        rfl
    | failure ec => exact (sharedHandler_serverSocket h).trans rfl
  | resolve | connect | write => cases hop

end Socket

/-- The server socket is connected to an endpoint that the resolver found for `curr_host`, which is the host that
    `parse_field` found in request `k`. -/
def OnRoute (s : Socket) (k : Nat) : Prop :=
  (∃ entry entries, s.serverSocket = .connected entry ∧ entry ∈ entries ∧ .resolved s.currHost entries ∈ s.trace) ∧
    ∃ request, request <+: s.message .client k ∧ .host k request s.currHost ∈ s.trace ∧
      parseField request (ascii "host") = .ok s.currHost

/-- While a request is written to the server, from its start on, the session is on the route of that request. A
    write that follows a read of the client goes out over the connection that was open before, and only when
    that connection was made for a host equal to the one of the request. -/
theorem reuse_never_misroutes {s : Socket} (h : session.Reachable s) :
    (∀ k rest q, ⟨.write .server k rest, q⟩ ∈ s.outstanding → OnRoute s k) ∧
    ∀ e t op q k msg q', session.Step s e t → ⟨op, q⟩ ∈ s.outstanding → op.reads .client = true →
      ⟨.write .server k msg, q'⟩ ∈ t.outstanding →
      t.serverSocket = s.serverSocket ∧ ∃ entry, s.serverSocket = .connected entry ∧
        entry.hostName = s.prevHost ∧ s.prevHost = t.currHost := by
  refine ⟨fun k rest q ho => ?_, fun e t op q k msg q' hs ho hop hw => ?_⟩
  · obtain ⟨⟨⟨request, hlog, hparse, hpre⟩, entry, hconn, hname, entries, hres, hmem⟩, -⟩ := reachable_routes h _ ho
    exact ⟨⟨entry, entries, hconn, hmem, hname ▸ hres⟩, request, hpre, hlog, hparse⟩
  · have c := reachable_chain h
    obtain ⟨⟨-, entry, hconn, hname, -⟩, -⟩ := reachable_routes (.step e h hs) _ hw
    have only : ∀ {o}, s.outstanding = [o] → o = ⟨op, q⟩ := fun hone => by
      rw [hone] at ho
      exact (List.mem_singleton.mp ho).symm
    have hkeep : t.serverSocket = s.serverSocket := by
      cases c.move hs with
      | dispatch hone hr =>
        cases only hone
        exact Socket.resume_serverSocket (s := { s with outstanding := [] }) hop hr
      | close => exact Socket.close_serverSocket
      | wait => exact Socket.handleWait_serverSocket
      | io | expire | elapse | disconnect => rfl
    refine ⟨hkeep, ?_⟩
    have hopen : s.serverSocket = .connected entry := hkeep ▸ hconn
    have hisOpen : s.serverSocket.isOpen = true := by
      rw [hopen]
      rfl
    have hprev : ConnectedTo s s.prevHost := by
      obtain ⟨hr, -⟩ := reachable_routes h _ ho
      cases op with
      | readHeader side k' =>
        cases side with
        | client => exact hr hisOpen
        | server => cases hop
      | readBody side k' limit httpBody =>
        cases side with
        | client => exact hr.1 hisOpen
        | server => cases hop
      | resolve | connect | write => cases hop
    obtain ⟨entry', hconn', hname', -⟩ := hprev
    rw [hopen] at hconn'
    cases hconn'
    exact ⟨entry, hopen, hname', hname'.symm.trans hname⟩

/-- A second request for the host of the first: the write starts over the connection of the first round. -/
def reusedSample : Socket :=
  (session.exec afterSample [.io 0 (.success sampleRequest []), .dispatch 0]).getD afterSample

theorem reuse_never_misroutes_sample : reusedSample.outstanding = [⟨.write .server 1 sampleRequest, none⟩] ∧
    OnRoute reusedSample 1 ∧ reusedSample.serverSocket = afterSample.serverSocket := by
  have hone : reusedSample.outstanding = [⟨.write .server 1 sampleRequest, none⟩] := by decide +kernel
  have hreach : session.Reachable reusedSample := afterSample_reachable.exec_getD
  exact ⟨hone, (reuse_never_misroutes hreach).1 1 _ _ (hone ▸ List.mem_singleton_self _), by decide +kernel⟩

end HttpProxy
