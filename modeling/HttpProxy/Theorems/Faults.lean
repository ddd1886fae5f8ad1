import HttpProxy.Theorems.Chain

/-! Faults. No handler but that of the timer catches anything, so that an exception leaves `io_context.run()` and
    ends the process with all its sessions. Here is the condition under which the handler of a completion
    returns; a run is free of faults exactly when each of its completions meets it. -/

namespace HttpProxy
open Search

/-- The length of the body can be read in the header, where the header names one. -/
def Measured (header : Bytes) : Prop :=
  identifyBody header = .contentLength →
    ∃ value n, parseField header (ascii "content-length") = .ok value ∧ stoul value = .ok n

/-- A request whose version can be read and, unless it is above 1.1, whose host and length can be read, from a
    client that is still there. -/
def Acceptable (s : Socket) (request : Bytes) (headerLen : Nat) : Prop :=
  ∃ version, stod (Socket.httpVersion request) = .ok version ∧
    (version.gt onePointOne = false → s.clientConnected = true ∧
      (∃ host, parseField request (ascii "host") = .ok host) ∧ Measured (request.take headerLen))

/-- The completions of an operation that its handler returns from. -/
def Op.Contained (s : Socket) : Op → Completion → Prop
  | readHeader side k, .success data _ =>
    ∀ pos, find? headerEnd ((s.append side k data).message side k) = some pos → s.stopped = true ∨
      match side with
      | .client => Acceptable s ((s.append side k data).message side k) (pos + headerEnd.length)
      | .server => s.clientConnected = true ∧
        Measured (((s.append side k data).message side k).take (pos + headerEnd.length))
  | readHeader .client _, .failure ec => s.stopped = true ∨ ec = .operationAborted ∨ ec = .eof
  | readHeader .server _, .failure ec =>
    s.stopped = true ∨ ec = .operationAborted ∨ ec = .eof ∨ ec = .connectionReset
  | readBody _ _ _ _, .failure ec => ec = .operationAborted ∨ ec = .eof
  | write _ _ _, .failure _ => s.stopped = true
  | _, _ => True

/-- An event whose handler, if it runs one, returns. -/
def Contained (s : Socket) : Event → Prop
  | .dispatch i => ∀ op c, s.outstanding[i]? = some ⟨op, some c⟩ → op.Contained s c
  | _ => True

theorem exists_bind_eq_ok {ε α β : Type} {x : Except ε α} {f : α → Except ε β} :
    (∃ b, (x >>= f) = .ok b) ↔ ∃ a, x = .ok a ∧ ∃ b, f a = .ok b := by
  simp only [bind_eq_ok]
  exact ⟨fun ⟨b, a, ha, hb⟩ => ⟨a, ha, b, hb⟩, fun ⟨a, ha, b, hb⟩ => ⟨b, a, ha, hb⟩⟩

namespace Socket
variable {s : Socket} {side : Side} {k n : Nat}

theorem readBody_ok_iff {header : Bytes} :
    (∃ t, s.readBody side k header = .ok t) ↔ s.stopped = true ∨ Measured header := by
  unfold readBody Measured
  cases hs : s.stopped
  · cases hb : identifyBody header with
    | none => simp
    | chunked =>
      simp only [Bool.false_eq_true, ↓reduceIte, false_or, reduceCtorEq, false_implies, iff_true]
      split <;> exact ⟨_, rfl⟩
    | contentLength =>
      simp only [Bool.false_eq_true, ↓reduceIte, false_or, forall_const, exists_bind_eq_ok]
      constructor
      · rintro ⟨value, hv, n, hn, -⟩
        exact ⟨value, n, hv, hn⟩
      · rintro ⟨value, n, hv, hn⟩
        exact ⟨value, hv, n, hn, _, rfl⟩
  · simp

theorem remoteEndpoint_ok_iff {u : Unit} : s.remoteEndpoint = .ok u ↔ s.clientConnected = true := by
  unfold remoteEndpoint
  cases s.clientConnected <;> simp

/-- The handler of a request header returns when the session is stopped or the request is acceptable. -/
theorem clientHeaderHandler_ok_iff : (∃ t, s.clientHeaderHandler k none n = .ok t) ↔
    s.stopped = true ∨ Acceptable s (s.message .client k) n := by
  unfold clientHeaderHandler Acceptable
  cases hs : s.stopped
  · simp only [cancelTimer_stopped, hs, Bool.false_eq_true, ↓reduceIte, false_or, exists_bind_eq_ok]
    refine exists_congr fun version => and_congr_right fun _ => ?_
    cases version.gt onePointOne
    · simp only [Bool.false_eq_true, ↓reduceIte, forall_const, exists_bind_eq_ok, readBody_ok_iff,
        remoteEndpoint_ok_iff]
      constructor
      · intro ⟨_, hc, host, hh, hm⟩
        rcases hm with hm | hm
        · cases hm
        · exact ⟨hc, ⟨host, hh⟩, hm⟩
      · intro ⟨hc, ⟨host, hh⟩, hm⟩
        exact ⟨(), hc, host, hh, Or.inr hm⟩
    · simp only [↓reduceIte, Bool.true_eq_false, false_implies, iff_true]
      exact ⟨_, rfl⟩
  · simp [hs]

theorem serverHeaderHandler_ok_iff : (∃ t, s.serverHeaderHandler k none n = .ok t) ↔
    s.stopped = true ∨ s.clientConnected = true ∧ Measured ((s.message .server k).take n) := by
  unfold serverHeaderHandler
  cases hs : s.stopped
  · simp only [Bool.false_eq_true, ↓reduceIte, false_or, exists_bind_eq_ok, remoteEndpoint_ok_iff, readBody_ok_iff, hs]
    exact ⟨fun ⟨_, hc, hm⟩ => ⟨hc, hm⟩, fun ⟨hc, hm⟩ => ⟨(), hc, hm⟩⟩
  · simp

/-- The error codes that the handler of a header returns from; on an error no header was read. -/
theorem headerHandler_failed_ok_iff {ec : ErrorCode} : (∃ t, s.headerHandler side k (some ec) 0 = .ok t) ↔
    s.stopped = true ∨ ec = .operationAborted ∨ ec = .eof ∨ side = .server ∧ ec = .connectionReset := by
  cases hs : s.stopped <;> cases side <;> cases ec <;>
    simp [headerHandler, clientHeaderHandler, serverHeaderHandler, hs]

theorem sharedHandler_ok_iff {httpBody : Bytes} {ec : Option ErrorCode} :
    (∃ t, s.sharedHandler side k httpBody ec = .ok t) ↔
      ec = none ∨ ec = some .operationAborted ∨ ec = some .eof := by
  rcases ec with _ | ec
  · simp [sharedHandler]
  · cases ec <;> simp [sharedHandler]

theorem writeHandler_ok_iff {ec : Option ErrorCode} :
    (∃ t, s.writeHandler side k ec = .ok t) ↔ s.stopped = true ∨ ec = none := by
  cases hs : s.stopped <;> cases side <;> cases ec <;>
    simp [writeHandler, clientWriteHandler, serverWriteHandler, hs]

/-- A completion is contained exactly when the operation goes on or its handler returns. -/
theorem resume_ok_iff {op : Op} {c : Completion} : (∃ t, s.resume op c = .ok t) ↔ op.Contained s c := by
  cases op with
  | readHeader side k =>
    cases c with
    | success data endpoints =>
      simp only [resume, Op.Contained]
      split
      · rename_i pos hpos
        rw [hpos]
        cases side
        · refine clientHeaderHandler_ok_iff.trans ?_
          simp [Acceptable, message, append]
        · refine serverHeaderHandler_ok_iff.trans ?_
          simp [message, append]
      · rename_i hnone
        simp [hnone]
    | failure ec =>
      refine headerHandler_failed_ok_iff.trans ?_
      cases side <;> simp [Op.Contained]
  | readBody side k limit httpBody =>
    cases c with
    | success data endpoints =>
      simp only [resume, Op.Contained, iff_true]
      split
      · exact sharedHandler_ok_iff.mpr (Or.inl rfl)
      · exact ⟨_, rfl⟩
    | failure ec => exact sharedHandler_ok_iff.trans (by simp [Op.Contained])
  | resolve k host => cases c <;> exact iff_of_true ⟨_, rfl⟩ trivial
  | connect k entries => cases c <;> rcases entries with _ | ⟨entry, _ | ⟨next, rest⟩⟩ <;> exact iff_of_true ⟨_, rfl⟩ trivial
  | write side k rest =>
    cases c with
    | success data endpoints =>
      simp only [resume, Op.Contained, iff_true]
      split
      · exact writeHandler_ok_iff.mpr (Or.inr rfl)
      · exact ⟨_, rfl⟩
    | failure ec => exact writeHandler_ok_iff.trans (by simp [Op.Contained])

end Socket

/-! ### Runs -/

theorem step_contained {s t : Socket} {e : Event} (h : session.Step s e t) : Contained s e := by
  cases e with
  | dispatch i =>
    intro op c ho
    obtain ⟨op', c', ho', ht⟩ := Socket.step_dispatch h
    cases ho.symm.trans ho'
    exact (Socket.resume_ok_iff (s := { s with outstanding := s.outstanding.eraseIdx i })).mp ⟨t, ht.symm⟩
  | io | expire | wait | close | elapse | disconnect => trivial

theorem fault_not_contained {s : Socket} {e : Event} (h : session.Faults s e) : ¬Contained s e := by
  obtain ⟨fault, hf⟩ := h
  intro contained
  cases e with
  | dispatch i =>
    obtain ⟨op, c, ho, hr⟩ := Socket.step_dispatch hf
    obtain ⟨t, ht⟩ := Socket.resume_ok_iff (s := { s with outstanding := s.outstanding.eraseIdx i }).mpr
      (contained op c ho)
    rw [ht] at hr
    cases hr
  | io i c =>
    obtain ⟨op, -, -, hr⟩ := Socket.step_io hf
    cases hr
  | expire =>
    obtain ⟨-, -, hr⟩ := Socket.step_expire hf
    cases hr
  | wait =>
    obtain ⟨ec, queue, -, hr⟩ := Socket.step_wait hf
    cases hr
  | close | elapse | disconnect => cases hf

/-- A run of a session ends without a fault exactly when each of its completions is contained. -/
theorem crash_containment {s₀ : Socket} {ps : List (Socket × Event)} {out : Except Fault Socket}
    (init : session.Init s₀) (run : session.Ends s₀ ps out) :
    (∃ t, out = .ok t) ↔ ∀ p ∈ ps, Contained p.1 p.2 :=
  run.ok_iff_forall_steps init (fun _ _ _ _ h => step_contained h) fun _ _ _ h => fault_not_contained h

/-- A request line of two words: the version is empty, and `stod` throws. -/
def twoWords : Bytes := ascii "GET /\r\n\r\n"

/-- The session that has received it. -/
def afterTwoWords : Socket :=
  (session.exec (Socket.new 0).start [.io 0 (.success twoWords [])]).getD (Socket.new 0).start

theorem twoWords_run : session.Ends (Socket.new 0).start
    [(afterTwoWords, .dispatch 0), ((Socket.new 0).start, .io 0 (.success twoWords []))]
    (.error (.thrown .invalidArgument)) := by
  have received : session.Step (Socket.new 0).start (.io 0 (.success twoWords [])) afterTwoWords := by
    rw [session_step]
    decide +kernel
  have thrown : session.step afterTwoWords (.dispatch 0) = some (.error (.thrown .invalidArgument)) := by
    rw [session_step_eq]
    decide +kernel
  exact .fault (.step .nil received) thrown

theorem crash_containment_twoWords : ¬Contained afterTwoWords (.dispatch 0) := by
  intro contained
  have all : ∀ p ∈ [(afterTwoWords, Event.dispatch 0), ((Socket.new 0).start, .io 0 (.success twoWords []))],
      Contained p.1 p.2 := by
    intro p hp
    rcases List.mem_cons.mp hp with rfl | hp
    · exact contained
    · rw [List.mem_singleton.mp hp]
      trivial
  obtain ⟨t, ht⟩ := (crash_containment ⟨0, rfl⟩ twoWords_run).mpr all
  cases ht

theorem fault_escapes : ¬∀ s₀ ps out, session.Init s₀ → session.Ends s₀ ps out → ∃ t, out = .ok t := by
  intro contained
  obtain ⟨t, ht⟩ := contained _ _ _ ⟨0, rfl⟩ twoWords_run
  cases ht

end HttpProxy
