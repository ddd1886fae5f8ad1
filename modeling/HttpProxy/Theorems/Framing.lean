import HttpProxy.Theorems.Recognition
import HttpProxy.Theorems.Transparency

/-! The condition under which a completion of a read agrees with the messages that a peer is expected to send, and
    what holds in a session whose completions all meet it: what is handed on is as long as the message expected,
    and no read goes on behind its end. -/

namespace HttpProxy
open Search

/-- What is expected of a side: in each round a message of some length and, from the client, for some host. -/
structure Script where
  side : Side
  len : Nat → Nat
  host : Nat → Option Bytes

/-- Whether the version of a request is one that the proxy goes on with. -/
def supported (request : Bytes) : Bool :=
  match stod (Socket.httpVersion request) with
  | .ok version => !version.gt onePointOne
  | .error _ => false

namespace Script

/-- A message whose header is complete: nothing of the next message was read with it, and its end and its host
    are found. -/
def HeaderFits (x : Script) (k : Nat) (httpHeaderPlus httpHeader : Bytes) : Prop :=
  httpHeaderPlus.length ≤ x.len k ∧ BodyEnds (x.len k) httpHeaderPlus httpHeader ∧
    ∀ host ∈ x.host k, parseField httpHeaderPlus (ascii "host") = .ok host

end Script

/-- The completions of a read that agree with what is expected. -/
def Op.Framed (x : Script) (s : Socket) : Op → Completion → Prop
  | readHeader side k, .success data _ => side = x.side → s.stopped = false →
    ∀ pos ∈ find? headerEnd (s.message side k ++ data),
      (side = .client → supported (s.message side k ++ data) = true) →
        x.HeaderFits k (s.message side k ++ data) ((s.message side k ++ data).take (pos + headerEnd.length))
  | readBody side k none httpBody, .success data _ =>
    side = x.side → ChunksEnd (x.len k) (s.message side k) (httpBody ++ data)
  | _, _ => True

/-- An event that completes no read against what is expected. -/
def Framed (x : Script) (s : Socket) : Event → Prop
  | .dispatch i => ∀ o ∈ s.outstanding[i]?, ∀ c ∈ o.completion, o.op.Framed x s c
  | _ => True

instance {x : Script} {k : Nat} {plus header : Bytes} : Decidable (x.HeaderFits k plus header) :=
  inferInstanceAs (Decidable (_ ∧ _ ∧ ∀ host ∈ x.host k, _))

instance {x : Script} {s : Socket} : ∀ {op : Op} {c : Completion}, Decidable (op.Framed x s c)
  | .readHeader _ _, .success _ _ => inferInstanceAs (Decidable (_ → _ → ∀ pos ∈ _, _ → _))
  | .readBody _ _ none _, .success _ _ => inferInstanceAs (Decidable (_ → ChunksEnd _ _ _))
  | .readBody _ _ (some _) _, .success _ _ | .resolve _ _, .success _ _ | .connect _ _, .success _ _
  | .write _ _ _, .success _ _ => .isTrue trivial
  | .readHeader _ _, .failure _ | .readBody _ _ none _, .failure _ | .readBody _ _ (some _) _, .failure _
  | .resolve _ _, .failure _ | .connect _ _, .failure _ | .write _ _ _, .failure _ => .isTrue trivial

instance {x : Script} {s : Socket} : ∀ {e : Event}, Decidable (Framed x s e)
  | .dispatch _ => inferInstanceAs (Decidable (∀ o ∈ _, ∀ c ∈ _, _))
  | .io _ _ | .expire | .wait | .close | .elapse _ | .disconnect => .isTrue trivial

/-! ### The invariant -/

/-- The message of the side is read in full. -/
def Script.Whole (x : Script) (s : Socket) (k : Nat) : Prop :=
  s.message x.side k ≠ [] ∧ (s.message x.side k).length = x.len k

/-- A write that hands the message of the side on starts with all of it, and the host found is the one expected. -/
def Action.Fits (x : Script) : Action → Prop
  | start (.write side k msg) => side = x.side.other → msg ≠ [] ∧ msg.length = x.len k
  | host k _ name => x.side = .client → ∀ expected ∈ x.host k, name = expected
  | _ => True

/-- The bytes that a queued completion brings. -/
def Outstanding.queued (o : Outstanding) : Bytes :=
  match o.completion with
  | some (.success data _) => data
  | _ => []

/-- How far the message of the side is read while an operation is outstanding; a step that waits is not at the end
    of the message. -/
def Outstanding.Fits (x : Script) (s : Socket) (o : Outstanding) : Prop :=
  match o.op with
  | .readHeader side k => side = x.side → find? headerEnd (s.message x.side k) = none
  | .readBody side k (some n) httpBody => side = x.side → s.message x.side k ≠ [] ∧
    (s.message x.side k).length + n = x.len k ∧ (httpBody ++ o.queued).length ≤ n ∧
    (o.completion = none → httpBody.length < n)
  | .readBody side k none httpBody => side = x.side → s.message x.side k ≠ [] ∧
    (o.completion = none → (s.message x.side k).length + httpBody.length < x.len k)
  | .resolve k _ | .connect k _ => x.side = .client → x.Whole s k
  | .write _ _ _ => True

/-- Whether the read of a side is still to come in the round of an operation. -/
def Op.before (side : Side) : Op → Bool
  | readHeader .client _ | readBody .client _ _ _ | resolve _ _ | connect _ _ | write .server _ _ => side = .server
  | _ => false

structure Fitting (x : Script) (s : Socket) : Prop where
  log : ∀ a ∈ s.trace, a.Fits x
  fits : ∀ o ∈ s.outstanding, o.Fits x s
  fresh : ∀ o ∈ s.outstanding, o.op.before x.side = true → s.message x.side o.op.msgId = []

/-- A session between two operations. -/
structure Fitted (x : Script) (s : Socket) : Prop where
  idle : s.outstanding = []
  log : ∀ a ∈ s.trace, a.Fits x

/-- What `read_body` leaves to its callback: the message of the side is whole once it is read, and not yet begun
    before. -/
def Script.Ready (x : Script) (s : Socket) (side : Side) (k : Nat) : Prop :=
  (side = x.side → x.Whole s k) ∧ (side = .client → x.side = .server → s.message x.side k = [])

theorem subSize_of_le {a b : Nat} (h : b ≤ a) (hlt : a - b < sizeMod) : subSize a b = a - b := by
  unfold subSize sizeMod at *
  omega

theorem stoul_lt {s : Bytes} {n : Nat} (h : stoul s = .ok n) : n < sizeMod := by
  unfold stoul at h
  dsimp only at h
  split at h
  · cases h
  · split at h
    · cases h
    · rename_i hlt
      rw [← Except.ok.inj h]
      split
      · exact Nat.mod_lt _ (by decide)
      · exact Nat.lt_of_not_le hlt

namespace Socket
variable {s t : Socket} {side : Side} {k : Nat}

theorem readBody_branch {header : Bytes} (running : s.stopped = false) (h : s.readBody side k header = .ok t) :
    match identifyBody header with
    | .none => t = s.callback side k
    | .contentLength => ∃ n, (parseField header (ascii "content-length") >>= stoul) = .ok n ∧
      ∃ limit, limit = subSize n (subSize (s.message side k).length header.length) ∧
        t = s.startOp (.readBody side k (some limit) []) (if limit = 0 then some (.success [] []) else none)
    | .chunked => ((findFrom? lastChunk (s.message side k) header.length).isSome = true ∧ t = s.callback side k) ∨
      (findFrom? lastChunk (s.message side k) header.length).isSome = false ∧
        t = s.startOp (.readBody side k none []) none := by
  unfold readBody at h
  simp only [running, Bool.false_eq_true, ↓reduceIte] at h
  cases hb : identifyBody header with
  | none => exact (Except.ok.inj (hb ▸ h)).symm
  | contentLength =>
    simp only [hb] at h
    obtain ⟨value, hv, h⟩ := bind_eq_ok.mp h
    obtain ⟨n, hn, h⟩ := bind_eq_ok.mp h
    exact ⟨n, bind_eq_ok.mpr ⟨value, hv, hn⟩, _, rfl, (Except.ok.inj h).symm⟩
  | chunked =>
    simp only [hb] at h
    split at h
    · rename_i hf
      exact Or.inl ⟨hf, (Except.ok.inj h).symm⟩
    · rename_i hf
      exact Or.inr ⟨Bool.eq_false_iff.mpr hf, (Except.ok.inj h).symm⟩

end Socket

/-! ### The handlers -/

namespace Fitted
variable {x : Script} {s t : Socket} {side : Side} {k n : Nat} {ec : Option ErrorCode}

theorem fitting (h : Fitted x s) : Fitting x s where
  log := h.log
  fits o ho := by rw [h.idle] at ho; cases ho
  fresh o ho := by rw [h.idle] at ho; cases ho

theorem frame (h : Fitted x s) (ho : t.outstanding = s.outstanding) (ht : t.trace = s.trace) : Fitted x t :=
  ⟨ho.trans h.idle, ht ▸ h.log⟩

theorem logged (h : Fitted x s) {a : Action} (ha : a.Fits x) : Fitted x (s.log a) :=
  ⟨h.idle, List.forall_mem_cons.mpr ⟨ha, h.log⟩⟩

theorem close (h : Fitted x s) : Fitting x s.close := by
  refine (Fitted.mk (Socket.close_outstanding_nil h.idle) ?_).fitting
  cases hs : s.stopped
  · rw [Socket.close_of_not_stopped hs]
    exact List.forall_mem_cons.mpr ⟨trivial, h.log⟩
  · rw [Socket.close_of_stopped hs]
    exact h.log

theorem startOp (h : Fitted x s) (op : Op) (q : Option Completion) (hl : (Action.start op).Fits x)
    (hf : Outstanding.Fits x s ⟨op, q⟩) (hb : op.before x.side = true → s.message x.side op.msgId = []) :
    Fitting x (s.startOp op q) where
  log := List.forall_mem_cons.mpr ⟨hl, h.log⟩
  fits o ho := by
    rw [Socket.mem_startOp h.idle ho]
    exact hf
  fresh o ho := by
    rw [Socket.mem_startOp h.idle ho]
    exact hb

theorem again (h : Fitted x s) (op : Op) (hf : Outstanding.Fits x s ⟨op, none⟩)
    (hb : op.before x.side = true → s.message x.side op.msgId = []) : Fitting x (s.again op) where
  log := h.log
  fits o ho := by
    rw [Socket.mem_again h.idle ho]
    exact hf
  fresh o ho := by
    rw [Socket.mem_again h.idle ho]
    exact hb

theorem sendMessageToServer (h : Fitted x s) (hr : x.Ready s .client k) : Fitting x (s.sendMessageToServer k) := by
  refine h.startOp _ _ (fun hs => ?_) trivial fun hb => hr.2 rfl (by simpa [Op.before] using hb)
  have hc : x.side = .client := Side.other_injective hs.symm
  have whole := hr.1 hc.symm
  rw [Script.Whole, hc] at whole
  exact whole

theorem callback (h : Fitted x s) (hr : x.Ready s side k) : Fitting x (s.callback side k) := by
  cases side with
  | client =>
    rcases Socket.callback_client_cases s k with he | ⟨-, -, he⟩ <;> rw [he]
    · exact h.startOp _ none trivial (fun hc => hr.1 hc.symm) fun hb => hr.2 rfl (by simpa [Op.before] using hb)
    · exact h.sendMessageToServer hr
  | server =>
    refine h.startOp _ _ (fun hs => ?_) trivial fun hb => by simp [Op.before] at hb
    have hc : x.side = .server := Side.other_injective hs.symm
    have whole := hr.1 hc.symm
    rw [Script.Whole, hc] at whole
    exact whole

/-- The branches of `read_body`: the message is whole, or the read that is started ends where the message does. -/
theorem readBody (h : Fitted x s) {header : Bytes} (hne : side = x.side → s.message x.side k ≠ [])
    (hfits : side = x.side → s.stopped = false → x.HeaderFits k (s.message x.side k) header)
    (hhead : side = x.side → header.length ≤ (s.message x.side k).length)
    (hb : side = .client → x.side = .server → s.message x.side k = []) (hr : s.readBody side k header = .ok t) :
    Fitting x t := by
  have before : ∀ op : Op, op.msgId = k → (op.before x.side = true → side = .client ∧ x.side = .server) →
      op.before x.side = true → s.message x.side op.msgId = [] := fun op hk hop hbe => by
    rw [hk]
    exact hb (hop hbe).1 (hop hbe).2
  have reading : ∀ limit, (Op.readBody side k limit []).before x.side = true → side = .client ∧ x.side = .server :=
    fun limit hbe => by cases side <;> simp_all [Op.before]
  cases running : s.stopped
  · have hbranch := Socket.readBody_branch running hr
    by_cases hs : side = x.side
    · obtain ⟨hle, hends, -⟩ := hfits hs running
      unfold BodyEnds at hends
      subst hs
      cases hbody : identifyBody header with
      | none =>
        simp only [hbody] at hbranch hends
        rw [hbranch]
        exact h.callback ⟨fun _ => ⟨hne rfl, hends⟩, hb⟩
      | contentLength =>
        simp only [hbody] at hbranch hends
        obtain ⟨n, hn, limit, hlimit, rfl⟩ := hbranch
        rw [hn] at hends
        simp only at hends
        obtain ⟨value, -, hvalue⟩ := bind_eq_ok.mp hn
        have hlt := stoul_lt hvalue
        have hhead := hhead rfl
        rw [subSize_of_le hhead (by omega), subSize_of_le (by omega) (by omega)] at hlimit
        refine h.startOp _ _ trivial (fun _ => ⟨hne rfl, by omega, ?_, ?_⟩) (before _ rfl (reading _))
        · split <;> simp [Outstanding.queued]
        · intro hq
          split at hq
          · cases hq
          · rename_i h0
            exact Nat.pos_of_ne_zero h0
      | chunked =>
        simp only [hbody] at hbranch hends
        rcases hbranch with ⟨hfound, rfl⟩ | ⟨hfound, rfl⟩
        · exact h.callback ⟨fun _ => ⟨hne rfl, hends.mp hfound⟩, hb⟩
        · have hlt : (s.message x.side k).length < x.len k := by
            refine Nat.lt_of_le_of_ne hle fun he => ?_
            rw [hends.mpr he] at hfound
            cases hfound
          exact h.startOp _ none trivial (fun _ => ⟨hne rfl, fun _ => hlt⟩) (before _ rfl (reading _))
    · rcases Socket.readBody_cases hr with ⟨-, rfl⟩ | ⟨-, rfl⟩ | ⟨-, limit, q, rfl, -⟩
      · exact h.fitting
      · exact h.callback ⟨fun he => absurd he hs, hb⟩
      · exact h.startOp _ q trivial (by cases limit <;> exact fun he => absurd he hs) (before _ rfl (reading _))
  · rcases Socket.readBody_cases hr with ⟨-, rfl⟩ | ⟨hs, -⟩ | ⟨hs, -⟩
    · exact h.fitting
    · rw [running] at hs
      cases hs
    · rw [running] at hs
      cases hs

/-- The header of a message is read: its host is logged, and `read_body` goes on. -/
theorem headerHandler (h : Fitted x s) (hne : side = x.side → ec = none → s.message x.side k ≠ [])
    (hfits : side = x.side → s.stopped = false → ec = none →
      (side = .client → supported (s.message x.side k) = true) →
        x.HeaderFits k (s.message x.side k) ((s.message x.side k).take n))
    (hb : side = .client → x.side = .server → s.message x.side k = []) (hh : s.headerHandler side k ec n = .ok t) :
    Fitting x t := by
  cases side with
  | client =>
    rcases Socket.clientHeaderHandler_cases hh with ⟨rfl, -⟩ | ⟨rfl, -, -⟩ |
      ⟨running, hec, ⟨version, hversion, hle⟩, host, hhost, hr⟩
    · exact (h.frame (t := s.cancelTimer) rfl rfl).fitting
    · exact (h.frame (t := s.cancelTimer) rfl rfl).close
    · have ok : supported (s.message .client k) = true := by simp [supported, hversion, hle]
      have header : .client = x.side → x.HeaderFits k (s.message x.side k) ((s.message x.side k).take n) := fun hs =>
        hfits hs running hec fun _ => hs ▸ ok
      have named : (Action.host k (s.message .client k) host).Fits x := by
        intro hs expected hx
        obtain ⟨-, -, hname⟩ := header hs.symm
        rw [hs] at hname
        exact Except.ok.inj (hhost.symm.trans (hname expected hx))
      have fitted : Fitted x ({ s.cancelTimer with currHost := host }.log (.host k (s.message .client k) host)) :=
        (h.frame (t := { s.cancelTimer with currHost := host }) rfl rfl).logged named
      refine fitted.readBody (k := k) (fun hs => hne hs hec) (fun hs _ => ?_) (fun hs => ?_) hb hr
      · have hx := header hs
        rw [← hs] at hx ⊢
        exact hx
      · rw [← hs]
        exact List.length_take_le' _ _
  | server =>
    rcases Socket.serverHeaderHandler_cases hh with ⟨rfl, -⟩ | ⟨rfl, -, -⟩ | ⟨running, hec, hr⟩
    · exact h.fitting
    · exact h.close
    · refine h.readBody (fun hs => hne hs hec) (fun hs _ => ?_) (fun hs => ?_) hb hr
      · have hx := hfits hs running hec fun hc => by cases hc
        rw [← hs] at hx ⊢
        exact hx
      · rw [← hs]
        exact List.length_take_le' _ _

theorem sharedHandler (h : Fitted x s) {httpBody : Bytes} (hk : k < s.messages.length)
    (hfull : side = x.side → ec = none →
      s.message x.side k ≠ [] ∧ (s.message x.side k).length + httpBody.length = x.len k)
    (hb : side = .client → x.side = .server → s.message x.side k = [])
    (hh : s.sharedHandler side k httpBody ec = .ok t) : Fitting x t := by
  have appended : Fitted x (s.append side k httpBody) := h.frame rfl rfl
  rcases Socket.sharedHandler_cases hh with ⟨hec, rfl⟩ | ⟨-, rfl⟩
  · refine appended.callback ⟨fun hs => ?_, fun hc hx => ?_⟩
    · obtain ⟨hne, hlen⟩ := hfull hs hec
      subst hs
      rw [Script.Whole, Socket.message_append hk]
      exact ⟨by simp [hne], by rw [List.length_append, hlen]⟩
    · rw [Socket.message_append_of_ne (by rw [hc, hx]; decide)]
      exact hb hc hx
  · exact appended.fitting

theorem connectToEndpoints (h : Fitted x s) (hr : x.Ready s .client k) (entries : List Entry) :
    Fitting x (s.connectToEndpoints k entries) := by
  have before : ∀ entries', (Op.connect k entries').before x.side = true → s.message x.side k = [] := fun _ hb =>
    hr.2 rfl (by simpa [Op.before] using hb)
  unfold Socket.connectToEndpoints
  split
  · exact h.startOp _ _ trivial (fun hc => hr.1 hc.symm) (before [])
  · exact (h.frame (t := { s with serverSocket := .opened }) rfl rfl).startOp (.connect k entries) none trivial
      (fun hc => hr.1 hc.symm) (before entries)

theorem resolveHandler (h : Fitted x s) (hr : x.Ready s .client k) (ec : Option ErrorCode) (entries : List Entry) :
    Fitting x (s.resolveHandler k ec entries) := by
  rcases Socket.resolveHandler_cases s k ec entries with ⟨he, -⟩ | he | ⟨-, -, he⟩ <;> rw [he]
  · exact h.fitting
  · exact h.close
  · exact h.connectToEndpoints hr entries

theorem connectHandler (h : Fitted x s) (hr : x.Ready s .client k) (ec : Option ErrorCode) :
    Fitting x (s.connectHandler k ec) := by
  rcases Socket.connectHandler_cases s k ec with ⟨he, -⟩ | he | ⟨-, -, he⟩ <;> rw [he]
  · exact h.fitting
  · exact h.close
  · exact h.sendMessageToServer hr

theorem writeHandler (h : Fitted x s) (hb : side = .server → x.side = .server → s.message x.side k = [])
    (hh : s.writeHandler side k ec = .ok t) : Fitting x t := by
  have unread : find? headerEnd ([] : Bytes) = none := rfl
  rcases Socket.writeHandler_cases hh with ⟨-, rfl⟩ | ⟨-, -, ⟨rfl, rfl⟩ | ⟨rfl, rfl⟩⟩
  · exact h.fitting
  · -- The entry of the next round is empty.
    have next : Fitted x { s with prevHost := s.currHost, messages := s.messages ++ [([], [])] } := h.frame rfl rfl
    have empty : ∀ side', Socket.message { s with prevHost := s.currHost, messages := s.messages ++ [([], [])] }
        side' ((s.messages ++ [([], [])]).length - 1) = [] := fun side' => by
      cases side' <;> simp [Socket.message, Side.text, List.getD_eq_getElem?_getD]
    exact next.startOp _ none trivial (fun _ => (congrArg (find? headerEnd) (empty x.side)).trans unread)
      fun _ => empty x.side
  · refine h.startOp (.readHeader .server k) none trivial (fun hs => ?_) fun hbe => by simp [Op.before] at hbe
    exact (congrArg (find? headerEnd) (hb rfl hs.symm)).trans unread

/-- A completion that agrees with what is expected. -/
theorem resume {op : Op} {c : Completion} (h : Fitted x s) (hk : op.msgId < s.messages.length)
    (hf : Outstanding.Fits x s ⟨op, some c⟩) (hb : op.before x.side = true → s.message x.side op.msgId = [])
    (hc : op.Framed x s c) (hr : s.resume op c = .ok t) : Fitting x t := by
  cases op with
  | readHeader side k =>
    have begun : side = .client → x.side = .server → s.message x.side k = [] := fun hs hx =>
      hb (by rw [hs, hx]; rfl)
    cases c with
    | success data endpoints =>
      have appended : Fitted x (s.append side k data) := h.frame rfl rfl
      have text : (s.append side k data).message side k = s.message side k ++ data := Socket.message_append hk data
      have begun' : side = .client → x.side = .server → (s.append side k data).message x.side k = [] := fun hs hx => by
        rw [Socket.message_append_of_ne (by rw [hs, hx]; decide)]
        exact begun hs hx
      simp only [Socket.resume] at hr
      split at hr
      · rename_i pos hpos
        refine (appended.logged (a := .finish (.readHeader side k) none _) trivial).headerHandler
          (fun hs _ hnil => ?_) (fun hs running _ hok => ?_) begun' hr
        · rw [← hs] at hnil
          rw [show (s.append side k data).message side k = [] from hnil] at hpos
          cases hpos
        · have hx := hc hs running pos (by rw [← text]; exact hpos)
          rw [← text] at hx
          subst hs
          exact hx hok
      · rename_i hnone
        rw [← Except.ok.inj hr]
        refine appended.again (.readHeader side k) (fun hs => ?_) fun hbe => ?_
        · rw [← hs]
          exact hnone
        · have hs : side = .client ∧ x.side = .server := by cases side <;> simp_all [Op.before]
          exact begun' hs.1 hs.2
    | failure ec =>
      exact (h.logged (a := .finish (.readHeader side k) (some ec) s.now) trivial).headerHandler
        (fun _ hec => by cases hec) (fun _ _ hec => by cases hec) begun hr
  | readBody side k limit httpBody =>
    have begun : side = .client → x.side = .server → s.message x.side k = [] := fun hs hx =>
      hb (by rw [hs, hx]; rfl)
    cases c with
    | success data endpoints =>
      simp only [Socket.resume] at hr
      split at hr
      · rename_i hdone
        refine (h.logged (a := .finish (.readBody side k limit (httpBody ++ data)) none s.now) trivial).sharedHandler hk
          (fun hs _ => ?_) begun hr
        cases limit with
        | none =>
          obtain ⟨hne, -⟩ := hf hs
          obtain ⟨-, hends⟩ := hc hs
          subst hs
          exact ⟨hne, hends.mp hdone⟩
        | some n =>
          obtain ⟨hne, hlen, -⟩ := hf hs
          have hn : (httpBody ++ data).length = n := by simpa [Socket.bodyDone] using hdone
          exact ⟨hne, by rw [hn]; exact hlen⟩
      · rename_i hdone
        rw [← Except.ok.inj hr]
        refine h.again _ ?_ fun hbe => ?_
        · cases limit with
          | none =>
            intro hs
            obtain ⟨hne, -⟩ := hf hs
            obtain ⟨hle, hends⟩ := hc hs
            subst hs
            exact ⟨hne, fun _ => Nat.lt_of_le_of_ne hle fun he => hdone (hends.mpr he)⟩
          | some n =>
            intro hs
            obtain ⟨hne, hlen, hle, -⟩ := hf hs
            have hn : (httpBody ++ data).length ≠ n := by simpa [Socket.bodyDone] using hdone
            have hle : (httpBody ++ data).length ≤ n := hle
            exact ⟨hne, hlen, by simpa [Outstanding.queued] using hle, fun _ => Nat.lt_of_le_of_ne hle hn⟩
        · have hs : side = .client ∧ x.side = .server := by cases side <;> simp_all [Op.before]
          exact begun hs.1 hs.2
    | failure ec =>
      exact (h.logged (a := .finish (.readBody side k limit httpBody) (some ec) s.now) trivial).sharedHandler hk
        (fun _ hec => by cases hec) begun hr
  | resolve k host =>
    have ready : x.Ready s .client k := ⟨fun hs => hf hs.symm, fun _ hx => hb (by rw [hx]; rfl)⟩
    cases c <;> rw [← Except.ok.inj hr]
    · exact (h.logged (a := .finish (.resolve k host) none s.now) trivial).resolveHandler ready none _
    · exact (h.logged (a := .finish (.resolve k host) _ s.now) trivial).resolveHandler ready _ []
  | connect k entries =>
    have ready : x.Ready s .client k := ⟨fun hs => hf hs.symm, fun _ hx => hb (by rw [hx]; rfl)⟩
    have socket : ∀ socket, Fitted x { s with serverSocket := socket } := fun _ => h.frame rfl rfl
    cases c with
    | success data endpoints =>
      cases entries with
      | nil =>
        rw [← Except.ok.inj hr]
        exact (h.logged (a := .finish (.connect k []) none s.now) trivial).connectHandler ready none
      | cons entry rest =>
        rw [← Except.ok.inj hr]
        exact ((socket _).logged (a := .finish (.connect k (entry :: rest)) none s.now) trivial).connectHandler ready none
    | failure ec =>
      rcases entries with _ | ⟨entry, _ | ⟨next, rest⟩⟩ <;> rw [← Except.ok.inj hr]
      · exact (h.logged (a := .finish (.connect k []) (some ec) s.now) trivial).connectHandler ready (some ec)
      · exact (h.logged (a := .finish (.connect k [entry]) (some ec) s.now) trivial).connectHandler ready (some ec)
      · exact (socket .opened).again (.connect k (next :: rest)) hf hb
  | write side k rest =>
    have begun : side = .server → x.side = .server → s.message x.side k = [] := fun hs hx =>
      hb (by rw [hs, hx]; rfl)
    cases c with
    | success data endpoints =>
      simp only [Socket.resume] at hr
      split at hr
      · exact (h.logged (a := .finish (.write side k (rest.drop data.length)) none s.now) trivial).writeHandler begun hr
      · rw [← Except.ok.inj hr]
        exact h.again (.write side k (rest.drop data.length)) trivial (by cases side <;> exact hb)
    | failure ec => exact (h.logged (a := .finish (.write side k rest) (some ec) s.now) trivial).writeHandler begun hr

end Fitted

/-! ### Runs -/

namespace Fitting
variable {x : Script} {s t : Socket}

theorem fits_congr {o : Outstanding} (hm : t.messages = s.messages) (h : o.Fits x s) : o.Fits x t := by
  have same : ∀ side k, t.message side k = s.message side k := fun _ _ => Socket.message_congr hm
  simp only [Outstanding.Fits, Script.Whole, same] at h ⊢
  exact h

/-- A step that is aborted brings nothing and does not wait. -/
theorem fits_closing {o : Outstanding} (h : o.Fits x s) : (s.closing o).Fits x s := by
  obtain ⟨op, q⟩ := o
  rw [Socket.closing_eq]
  rcases Socket.closing_completion s ⟨op, q⟩ with hq | ⟨hnone, hq⟩ <;> rw [hq]
  · exact h
  · cases op with
    | readBody side k limit httpBody =>
      cases limit with
      | none =>
        intro hs
        exact ⟨(h hs).1, fun he => by cases he⟩
      | some n =>
        intro hs
        obtain ⟨hne, hlen, hle, -⟩ := h hs
        refine ⟨hne, hlen, ?_, fun he => by cases he⟩
        simp only [Outstanding.queued, List.append_nil]
        exact (List.length_append ▸ Nat.le_add_right _ _).trans hle
    | readHeader | resolve | connect | write => exact h

/-- A change that keeps the operations and the texts of the messages. -/
theorem frame (h : Fitting x s) (newer : List Action) {f : Outstanding → Outstanding}
    (hf : ∀ o, (f o).op = o.op ∧ (o.Fits x s → (f o).Fits x s)) (ho : t.outstanding = s.outstanding.map f)
    (hm : t.messages = s.messages) (ht : t.trace = newer ++ s.trace) (hn : ∀ a ∈ newer, a.Fits x) : Fitting x t where
  log a ha := by
    rw [ht, List.mem_append] at ha
    rcases ha with ha | ha
    · exact hn a ha
    · exact h.log a ha
  fits o ho' := by
    rw [ho] at ho'
    obtain ⟨o, hmem, rfl⟩ := List.mem_map.mp ho'
    exact fits_congr hm ((hf o).2 (h.fits o hmem))
  fresh o ho' hb := by
    rw [ho] at ho'
    obtain ⟨o, hmem, rfl⟩ := List.mem_map.mp ho'
    rw [(hf o).1] at hb ⊢
    rw [Socket.message_congr hm]
    exact h.fresh o hmem hb

theorem quiet (h : Fitting x s) (ho : t.outstanding = s.outstanding) (hm : t.messages = s.messages)
    (ht : t.trace = s.trace) : Fitting x t :=
  h.frame [] (f := id) (fun _ => ⟨rfl, id⟩) (by rw [ho, List.map_id]) hm ht nofun

theorem logged (h : Fitting x s) {a : Action} (ha : a.Fits x) : Fitting x (s.log a) :=
  h.frame [a] (f := id) (fun _ => ⟨rfl, id⟩) (List.map_id _).symm rfl rfl fun _ hb => List.mem_singleton.mp hb ▸ ha

theorem close (h : Fitting x s) : Fitting x s.close := by
  cases hs : s.stopped
  · refine h.frame [.stop] (f := s.closing) (fun _ => ⟨Socket.closing_op, fits_closing⟩) ?_ Socket.close_messages ?_
      fun a ha => List.mem_singleton.mp ha ▸ trivial <;> rw [Socket.close_of_not_stopped hs]
    rfl
  · rw [Socket.close_of_stopped hs]
    exact h

theorem handleWait (h : Fitting x s) (ec : Option ErrorCode) : Fitting x (s.handleWait ec) := by
  rcases Socket.handleWait_cases s ec with hw | ⟨-, -, hw⟩ | ⟨-, -, hw⟩ <;> rw [hw]
  · exact h
  · exact (h.logged (a := .timedOut s.now) trivial).close
  · exact (h.logged (a := .wait) trivial).quiet rfl rfl rfl

theorem io {op : Op} {q : Completion} (h : Fitting x s) (ho : s.outstanding = [⟨op, none⟩])
    (hq : op.allows q = true) :
    Fitting x { s with outstanding := [⟨op, some q⟩], trace := op.shows q ++ s.trace } := by
  have shown : ∀ a ∈ op.shows q, a.Fits x := by
    intro a ha
    cases op <;> cases q <;> simp only [Op.shows, List.mem_singleton, List.not_mem_nil] at ha <;> rw [ha] <;> trivial
  refine h.frame (op.shows q) (f := fun o => if o = ⟨op, none⟩ then ⟨op, some q⟩ else o) (fun o => ?_) (by simp [ho])
    rfl rfl shown
  split
  · rename_i he
    rw [he]
    refine ⟨rfl, fun hf => ?_⟩
    cases op with
    | readBody side k limit httpBody =>
      cases limit with
      | none =>
        intro hs
        exact ⟨(hf hs).1, fun he => by cases he⟩
      | some n =>
        intro hs
        obtain ⟨hne, hlen, hle, -⟩ := hf hs
        refine ⟨hne, hlen, ?_, fun he => by cases he⟩
        cases q with
        | success data endpoints =>
          simp only [Op.allows, Option.all_some, Bool.and_eq_true, decide_eq_true_eq] at hq
          simpa [Outstanding.queued] using hq.2
        | failure ec => simpa [Outstanding.queued] using hle
    | readHeader | resolve | connect | write => exact hf
  · exact ⟨rfl, id⟩

theorem step {e : Event} (h : Fitting x s) (c : Chain s) (hc : Framed x s e) (hs : session.Step s e t) :
    Fitting x t := by
  cases c.move hs with
  | io ho hq => exact h.io ho hq
  | @dispatch op q t ho hr =>
    have mem : (⟨op, some q⟩ : Outstanding) ∈ s.outstanding := ho ▸ List.mem_singleton_self _
    have current : op.msgId + 1 = s.messages.length := c.current _ mem
    have fitted : Fitted x { s with outstanding := [] } := ⟨rfl, h.log⟩
    refine fitted.resume (show op.msgId < s.messages.length by omega) (h.fits _ mem) (h.fresh _ mem) ?_ hr
    exact hc ⟨op, some q⟩ (by rw [ho]; rfl) q rfl
  | close => exact h.close
  | @wait ec queue =>
    exact (h.quiet (t := { s with timer := { s.timer with queue := queue } }) rfl rfl rfl).handleWait ec
  | expire => exact h.quiet rfl rfl rfl
  | elapse d => exact h.quiet rfl rfl rfl
  | disconnect => exact h.quiet rfl rfl rfl

end Fitting

theorem start_fitting (x : Script) (now : Nat) : Fitting x (Socket.new now).start where
  log a ha := by
    rcases List.mem_cons.mp ha with rfl | ha
    · trivial
    · rw [List.mem_singleton.mp ha]
      trivial
  fits o ho := by
    rw [List.mem_singleton.mp ho]
    intro hs
    rw [← hs]
    rfl
  fresh o ho hb := by
    rw [List.mem_singleton.mp ho]
    cases x.side <;> rfl

theorem within_fitting {x : Script} {s : Socket} (h : session.Within (Framed x) s) : Fitting x s :=
  h.invariant (fun _ ⟨now, hs⟩ => hs ▸ start_fitting x now) fun _ _ _ hr hf hc hs =>
    hf.step (reachable_chain hr.reachable) hc hs

/-- A read that waits has not seen all of the message that is expected. -/
theorem Fitting.read_short {x : Script} {s : Socket} {op : Op} {whole : Bytes} (h : Fitting x s) (ht : Transparent s)
    (ho : ⟨op, none⟩ ∈ s.outstanding) (hop : op.reads x.side = true) (hlen : x.len op.msgId = whole.length)
    (hend : (find? headerEnd whole).isSome = true) : ¬whole <+: takenSince x.side op.msgId s.trace := by
  intro hpre
  rw [ht.held _ ho x.side] at hpre
  have fits := h.fits _ ho
  cases op with
  | readHeader side k =>
    have hs : side = x.side := by simpa [Op.reads] using hop
    have hnone : find? headerEnd (s.message x.side k) = none := fits hs
    obtain ⟨pos, hpos⟩ := Option.isSome_iff_exists.mp hend
    obtain ⟨more, hmore⟩ := hpre
    have found := find?_append hpos more
    rw [hmore] at found
    simp only [Outstanding.inFlight, hs, ↓reduceIte, Option.elim_none, List.append_nil, Op.msgId] at found
    rw [found] at hnone
    cases hnone
  | readBody side k limit httpBody =>
    have hs : side = x.side := by simpa [Op.reads] using hop
    have hlt : (s.message x.side k).length + httpBody.length < x.len k := by
      cases limit with
      | none => exact (fits hs).2 rfl
      | some n =>
        obtain ⟨-, hwhole, -, hlt⟩ := fits hs
        have hlt := hlt rfl
        omega
    have hle := hpre.length_le
    simp only [Outstanding.inFlight, hs, ↓reduceIte, Option.elim_none, List.append_nil, Op.msgId,
      List.length_append] at hle
    have hlen : x.len k = whole.length := hlen
    omega
  | resolve | connect | write => cases hop

end HttpProxy
