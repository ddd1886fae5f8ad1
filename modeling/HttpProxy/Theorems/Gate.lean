import HttpProxy.Theorems.Clarity
import HttpProxy.Theorems.Faults
import HttpProxy.Theorems.Requests
import HttpProxy.Theorems.Stranded

/-! The version gate. A request whose version is neither 1.0 nor 1.1 gets no answer: its handler starts nothing and
    closes nothing, and no byte is moved from then on. -/

namespace HttpProxy
open Search

/-! ### A session in which nothing is outstanding -/

/-- Nothing is outstanding, and no byte was moved since. -/
structure Mute (s t : Socket) : Prop where
  idle : t.outstanding = []
  transfers : transfers t.trace = transfers s.trace

namespace Mute
variable {s t : Socket}

theorem close (h : Mute s t) : Mute s t.close where
  idle := Socket.close_outstanding_nil h.idle
  transfers := by
    cases running : t.stopped
    · rw [Socket.close_of_not_stopped running]
      exact h.transfers
    · rw [Socket.close_of_stopped running]
      exact h.transfers

theorem step {u : Socket} {e : Event} (h : Mute s t) (hs : session.Step t e u) : Mute s u := by
  cases Move.of_step (by simp [h.idle]) hs with
  | io ho => cases h.idle.symm.trans ho
  | dispatch ho => cases h.idle.symm.trans ho
  | close => exact h.close
  | @wait ec queue =>
    have woken : Mute s { t with timer := { t.timer with queue := queue } } := ⟨h.idle, h.transfers⟩
    rcases Socket.handleWait_cases { t with timer := { t.timer with queue := queue } } ec with
      hw | ⟨-, -, hw⟩ | ⟨-, -, hw⟩ <;> rw [hw]
    · exact woken
    · exact close (t := Socket.log { t with timer := { t.timer with queue := queue } } _) ⟨h.idle, h.transfers⟩
    · exact ⟨h.idle, h.transfers⟩
  | expire | elapse | disconnect => exact ⟨h.idle, h.transfers⟩

/-- What is mute stays mute. -/
theorem run {u : Socket} {ps : List (Socket × Event)} (h : Mute s t) (run : session.Run t ps u) : Mute s u := by
  induction run with
  | nil => exact h
  | step _ hs ih => exact ih.step hs

end Mute

/-! ### The version of a request -/

/-- When the header of a request of HTTP is read in a running session, the session goes mute for good, without being
    stopped, exactly when the version of the request is neither 1.0 nor 1.1, whatever its method, its target and its
    fields are and whatever is read with it. -/
theorem version_gate {s : Socket} (h : session.Reachable s) (running : s.stopped = false) {k : Nat} {data : Bytes}
    {endpoints : List Endpoint}
    (received : s.outstanding = [⟨.readHeader .client k, some (.success data endpoints)⟩]) {r : Http.Request}
    {tail : Bytes} (hread : s.message .client k ++ data = r.head ++ tail) :
    (∃ t, session.Step s (.dispatch 0) t ∧ t.stopped = false ∧
      ∀ ps u, session.Run t ps u → u.outstanding = [] ∧ transfers u.trace = transfers s.trace) ↔
      r.minor ≠ 48 ∧ r.minor ≠ 49 := by
  obtain ⟨version, hversion, hgate⟩ := version_request r tail
  have current : k < s.messages.length :=
    (reachable_chain h).current _ (received ▸ List.mem_singleton_self _) ▸ Nat.lt_succ_self k
  let s' := { s with outstanding := [] }.append .client k data
  have text : s'.message .client k = r.head ++ tail := (Socket.message_append current data).trans hread
  obtain ⟨n, hn, -⟩ := Http.find?_head r.line_plain r.fields tail
  have found : find? headerEnd (s'.message .client k) = some n := text ▸ hn
  have readOut : ∀ {t : Socket}, session.Step s (.dispatch 0) t ↔
      (s'.finish (.readHeader .client k) none).clientHeaderHandler k none (n + headerEnd.length) = .ok t := by
    intro t
    have step : s.step (.dispatch 0) =
        some ({ s with outstanding := [] }.resume (.readHeader .client k) (.success data endpoints)) := by
      simp [Socket.step, received]
    rw [session_step, step, Option.some.injEq]
    simp only [Socket.resume]
    rw [show find? headerEnd _ = some n from found]
    rfl
  have again : stod (Socket.httpVersion ((s'.finish (.readHeader .client k) none).message .client k)) = .ok version :=
    (congrArg (fun m => stod (Socket.httpVersion m)) text).trans hversion
  rw [← not_or, ← hgate]
  constructor
  · rintro ⟨t, hs, running', mute⟩ hle
    have alive : Alive t := by
      refine (Socket.clientHeaderHandler_alive_iff (s := s'.finish (.readHeader .client k) none) rfl running
        (readOut.mp hs)).mpr fun version' hv' => ?_
      rw [← Except.ok.inj (again.symm.trans hv')]
      exact hle
    exact Socket.not_alive (mute [] t .nil).1 running' alive
  · intro above
    have accepted : Acceptable (s'.finish (.readHeader .client k) none)
        ((s'.finish (.readHeader .client k) none).message .client k) (n + headerEnd.length) :=
      ⟨version, again, fun hle => absurd hle above⟩
    obtain ⟨t, ht⟩ := Socket.clientHeaderHandler_ok_iff.mpr (Or.inr accepted)
    have returned : t = (s'.finish (.readHeader .client k) none).cancelTimer := by
      rcases Socket.clientHeaderHandler_cases ht with ⟨ht, -⟩ | ⟨-, -, hec⟩ | ⟨-, -, ⟨version', hv', hle⟩, -⟩
      · exact ht
      · cases hec
      · rw [← Except.ok.inj (again.symm.trans hv')] at hle
        exact absurd hle above
    refine ⟨t, readOut.mpr ht, returned ▸ running, fun ps u run => ?_⟩
    have mute : Mute t u := Mute.run ⟨returned ▸ rfl, rfl⟩ run
    exact ⟨mute.idle, mute.transfers.trans (returned ▸ rfl)⟩

/-- A request of a version that HTTP has not got. -/
def versionNine : Http.Request := { sampleGet with minor := 57, line_words := by decide +kernel }

def receivedNine : Socket :=
  (session.exec (Socket.new 0).start [.io 0 (.success versionNine.head [])]).getD (Socket.new 0).start

theorem version_gate_nine : ∃ t, session.Step receivedNine (.dispatch 0) t ∧ t.stopped = false ∧
    ∀ ps u, session.Run t ps u → u.outstanding = [] ∧ transfers u.trace = transfers receivedNine.trace := by
  have received : receivedNine.outstanding =
      [⟨.readHeader .client 0, some (.success versionNine.head [])⟩] := by decide +kernel
  have hread : receivedNine.message .client 0 ++ versionNine.head = versionNine.head ++ [] := by decide +kernel
  exact (version_gate (session_start 0).exec_getD (by decide +kernel) received hread).mpr (by decide +kernel)

end HttpProxy
