import HttpProxy.Step

/-! `boost.cpp`: the acceptor, and the process with all its sessions.

    The threads of `main` run `io_context.run()` outside any `try`, so that an exception that leaves a handler ends
    the process. As in a session, handlers run one at a time, in any order; those of different sessions and of the
    acceptor share nothing but `io_context`. -/

namespace HttpProxy

/-- An outstanding `async_accept`: it waits for a client, or its completion is queued, with an error or with the
    socket of a client, who may have disconnected since. -/
inductive Accept where
  | waiting
  | queued (ec : Option ErrorCode) (clientConnected : Bool)
  deriving DecidableEq, Repr

/-- The sessions stand in the order of their acceptance; one that is over stays as it ended. -/
structure Server where
  accepts : List Accept
  sessions : List Socket
  now : Nat
  deriving DecidableEq, Repr

inductive ServerEvent where
  /-- A client connects to the port. -/
  | arrive (i : Nat)
  | fail (i : Nat) (ec : ErrorCode)
  /-- The client of a socket whose acceptance is queued disconnects. -/
  | depart (i : Nat)
  /-- The queued completion of an `async_accept` is run. -/
  | accept (i : Nat)
  | session (i : Nat) (e : Event)
  | elapse (d : Nat)
  deriving DecidableEq, Repr

/-- The events of a session that are its own: time passes for all of them, and nothing outside a session calls its
    `close`. -/
def Event.own : Event → Bool
  | elapse _ | close => false
  | _ => true

namespace Server

def startAccept (s : Server) : Server := { s with accepts := s.accepts ++ [.waiting] }

/-- The handler of `async_accept`. The log of a new socket asks for its `remote_endpoint()`, which throws once the
    client has disconnected. -/
def acceptHandler (s : Server) (ec : Option ErrorCode) (clientConnected : Bool) : Except Fault Server :=
  match ec with
  | some ec => .error (.thrown (.systemError ec))
  | none =>
    if clientConnected then .ok (startAccept { s with sessions := s.sessions ++ [(Socket.new s.now).start] })
    else .error (.thrown (.systemError .notConnected))

/-- `main`, run at time `now`, when it has called `start_accept`. -/
def main (now : Nat) : Server := startAccept { accepts := [], sessions := [], now := now }

def step (s : Server) : ServerEvent → Option (Except Fault Server)
  | .arrive i =>
    if s.accepts[i]? = some .waiting then some (.ok { s with accepts := s.accepts.set i (.queued none true) }) else none
  | .fail i ec =>
    -- Nothing cancels the acceptor.
    if s.accepts[i]? = some .waiting ∧ ec ≠ .operationAborted then
      some (.ok { s with accepts := s.accepts.set i (.queued (some ec) false) })
    else none
  | .depart i =>
    if s.accepts[i]? = some (.queued none true) then
      some (.ok { s with accepts := s.accepts.set i (.queued none false) })
    else none
  | .accept i =>
    match s.accepts[i]? with
    | some (.queued ec connected) => some ({ s with accepts := s.accepts.eraseIdx i }.acceptHandler ec connected)
    | _ => none
  | .session i e =>
    match s.sessions[i]? with
    | some x =>
      if e.own then (x.step e).map fun out => out.map fun y => { s with sessions := s.sessions.set i y } else none
    | none => none
  | .elapse d =>
    some (.ok { s with sessions := s.sessions.map fun x => { x with now := x.now + d }, now := s.now + d })

end Server

/-- The process, from the moment `main` has called `start_accept`. -/
def server : Machine Server ServerEvent Fault where
  Init s := ∃ now, s = Server.main now
  step := Server.step

theorem server_step_eq {s : Server} {e : ServerEvent} : server.step s e = s.step e := rfl

theorem server_step {s t : Server} {e : ServerEvent} : server.Step s e t ↔ s.step e = some (.ok t) := Iff.rfl

end HttpProxy
