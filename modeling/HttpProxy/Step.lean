import HttpProxy.Socket
import HttpProxy.Library.Transition

/-! The steps of a session: a low-level step of an operation completes, a queued completion is run, the timer
    expires or one of its completions is run, `close` is called from elsewhere, time passes, the client
    disconnects. Handlers run one at a time, in any order. -/

namespace HttpProxy
open Search

namespace Socket

/-- The final handler of `op` is called. -/
@[simps!] def finish (s : Socket) (op : Op) (ec : Option ErrorCode) : Socket := s.log (.finish op ec s.now)

/-- Whether a body read is complete: its buffer is full, or holds the terminator that it reads up to. -/
def bodyDone (limit : Option Nat) (httpBody : Bytes) : Bool :=
  match limit with
  | some n => httpBody.length == n
  | none => (find? lastChunk httpBody).isSome

/-- Run the queued completion of a low-level step of `op`: the operation starts its next step, or is done. -/
def resume (s : Socket) : Op → Completion → Except Fault Socket
  | op@(.readHeader side msgId), .success data _ =>
    let s := s.append side msgId data
    match find? headerEnd (s.message side msgId) with
    | some pos => (s.finish op none).headerHandler side msgId none (pos + headerEnd.length)
    | none => .ok (s.again op)
  | op@(.readHeader side msgId), .failure ec => (s.finish op (some ec)).headerHandler side msgId (some ec) 0
  | .readBody side msgId limit httpBody, .success data _ =>
    let httpBody := httpBody ++ data
    let op := .readBody side msgId limit httpBody
    if bodyDone limit httpBody then (s.finish op none).sharedHandler side msgId httpBody none else .ok (s.again op)
  | op@(.readBody side msgId _ httpBody), .failure ec =>
    (s.finish op (some ec)).sharedHandler side msgId httpBody (some ec)
  | op@(.resolve msgId host), .success _ endpoints =>
    .ok ((s.finish op none).resolveHandler msgId none (endpoints.map fun e => ⟨e, host, ascii "http"⟩))
  | op@(.resolve msgId _), .failure ec => .ok ((s.finish op (some ec)).resolveHandler msgId (some ec) [])
  | op@(.connect msgId (entry :: _)), .success _ _ =>
    .ok (({ s with serverSocket := .connected entry }.finish op none).connectHandler msgId none)
  | op@(.connect msgId []), .success _ _ => .ok ((s.finish op none).connectHandler msgId none)
  | .connect msgId (_ :: next :: rest), .failure _ =>
    .ok ({ s with serverSocket := .opened }.again (.connect msgId (next :: rest)))
  | op@(.connect msgId _), .failure ec => .ok ((s.finish op (some ec)).connectHandler msgId (some ec))
  | .write side msgId rest, .success data _ =>
    let rest := rest.drop data.length
    if rest = [] then (s.finish (.write side msgId rest) none).writeHandler side msgId none
    else .ok (s.again (.write side msgId rest))
  | op@(.write side msgId _), .failure ec => (s.finish op (some ec)).writeHandler side msgId (some ec)

end Socket

/-- What a low-level step that completes shows. -/
def Op.shows : Op → Completion → List Action
  | readHeader side _, .success data _ | readBody side _ _ _, .success data _ => [.taken side data]
  | write side k _, .success data _ => [.sent side k data]
  | resolve _ host, .success _ endpoints => [.resolved host (endpoints.map fun e => ⟨e, host, ascii "http"⟩)]
  | _, _ => []

inductive Event where
  /-- The waiting low-level step of an outstanding operation completes. -/
  | io (i : Nat) (c : Completion)
  /-- The queued completion of an outstanding operation is run. -/
  | dispatch (i : Nat)
  | expire
  /-- The first queued completion of the timer is run. -/
  | wait
  | close
  | elapse (d : Nat)
  | disconnect
  deriving DecidableEq, Repr

namespace Socket

def step (s : Socket) : Event → Option (Except Fault Socket)
  | .io i c =>
    match s.outstanding[i]? with
    | some ⟨op, none⟩ =>
      if op.allows c then
        some (.ok { s with outstanding := s.outstanding.set i ⟨op, some c⟩, trace := op.shows c ++ s.trace })
      else none
    | _ => none
  | .dispatch i =>
    match s.outstanding[i]? with
    | some ⟨op, some c⟩ => some ({ s with outstanding := s.outstanding.eraseIdx i }.resume op c)
    | _ => none
  | .expire =>
    if 0 < s.timer.pending ∧ s.timer.expiry ≤ s.now then some (.ok { s with timer := s.timer.expire }) else none
  | .wait =>
    match s.timer.queue with
    | ec :: queue => some (.ok ({ s with timer := { s.timer with queue := queue } }.handleWait ec))
    | [] => none
  | .close => some (.ok s.close)
  | .elapse d => some (.ok { s with now := s.now + d })
  | .disconnect => some (.ok { s with clientConnected := false })

end Socket

/-- A session, from the moment `start` has run. -/
def session : Machine Socket Event Fault where
  Init s := ∃ now, s = (Socket.new now).start
  step := Socket.step

theorem session_step_eq {s : Socket} {e : Event} : session.step s e = s.step e := rfl

theorem session_step {s t : Socket} {e : Event} : session.Step s e t ↔ s.step e = some (.ok t) := Iff.rfl

theorem session_start (now : Nat) : session.Reachable (Socket.new now).start := .init ⟨now, rfl⟩

end HttpProxy
