import HttpProxy.Utils
import HttpProxy.Asio
import Mathlib.Tactic.Simps.Basic

/-! `Socket.cpp`: the members of a session and its functions. A function that starts an operation adds it to
    the outstanding ones; the handler that it passes is the definition after it.

    Beside the members, a state holds what the session sees of Asio and of the client's connection, the time,
    and the trace of what the session did so far, newest first. -/

namespace HttpProxy
open Search

/-- What a session does that its peers, Asio or a reader of the log can see. -/
inductive Action where
  | start (op : Op)
  | wait
  /-- The final handler of an operation is called. -/
  | finish (op : Op) (ec : Option ErrorCode) (time : Nat)
  | taken (side : Side) (data : Bytes)
  | sent (side : Side) (msgId : Nat) (data : Bytes)
  | resolved (host : Bytes) (entries : List Entry)
  /-- `curr_host` is set to the host found in a request. -/
  | host (msgId : Nat) (request host : Bytes)
  | timedOut (time : Nat)
  | stop
  deriving DecidableEq, Repr

structure Socket where
  prevHost : Bytes
  currHost : Bytes
  messages : List (Bytes × Bytes)
  stopped : Bool
  timer : Timer
  serverSocket : ServerSocket
  clientConnected : Bool
  outstanding : List Outstanding
  now : Nat
  trace : List Action
  deriving DecidableEq, Repr

/-- The string of a pair that belongs to a side: the request, or the reply. -/
def Side.text : Side → Bytes × Bytes → Bytes
  | client, m => m.1
  | server, m => m.2

def Side.append (data : Bytes) : Side → Bytes × Bytes → Bytes × Bytes
  | client, m => (m.1 ++ data, m.2)
  | server, m => (m.1, m.2 ++ data)

def headerEnd : Bytes := ascii "\r\n\r\n"

def lastChunk : Bytes := ascii "0\r\n\r\n"

namespace Socket

/-- The constructor, run at time `now`. -/
def new (now : Nat) : Socket where
  prevHost := []
  currHost := []
  messages := []
  stopped := false
  timer := { expiry := now + timeout, pending := 0, queue := [] }
  serverSocket := .closed
  clientConnected := true
  outstanding := []
  now := now
  trace := []

@[simps] def log (s : Socket) (a : Action) : Socket := { s with trace := a :: s.trace }

/-- `messages[msgId].first` or `.second`. -/
def message (s : Socket) (side : Side) (msgId : Nat) : Bytes := side.text (s.messages.getD msgId ([], []))

@[simps] def append (s : Socket) (side : Side) (msgId : Nat) (data : Bytes) : Socket :=
  { s with messages := s.messages.modify msgId (side.append data) }

/-- Start an operation. A step that has nothing to wait for has its completion queued at once. -/
@[simps] def startOp (s : Socket) (op : Op) (completion : Option Completion) : Socket :=
  { s with outstanding := s.outstanding ++ [⟨op, completion⟩], trace := .start op :: s.trace }

/-- Start the next low-level step of an operation. -/
@[simps] def again (s : Socket) (op : Op) : Socket := { s with outstanding := s.outstanding ++ [⟨op, none⟩] }

@[simps] def asyncWait (s : Socket) : Socket := { s with timer := s.timer.asyncWait, trace := .wait :: s.trace }

@[simps] def cancelTimer (s : Socket) : Socket := { s with timer := s.timer.cancel }

@[simps] def cancel (s : Socket) (side : Side) : Socket := { s with outstanding := s.outstanding.map (·.cancel side) }

/-- `client_socket.remote_endpoint()`, which throws once the client has disconnected. -/
def remoteEndpoint (s : Socket) : Except Fault Unit :=
  if s.clientConnected then .ok () else .error (.thrown (.systemError .notConnected))

def close (s : Socket) : Socket :=
  if s.stopped then s
  else
    let s := { s with stopped := true, trace := .stop :: s.trace }.cancelTimer
    let s := if s.serverSocket.isOpen then s.cancel .server else s
    -- The client's socket is open from its acceptance on: nothing closes it.
    s.cancel .client

def handleWait (s : Socket) (ec : Option ErrorCode) : Socket :=
  if s.stopped then s
  else
    match ec with
    | none => if s.clientConnected then (s.log (.timedOut s.now)).close else s
    | some .operationAborted => s.asyncWait
    | some _ => s

def sendMessageToServer (s : Socket) (msgId : Nat) : Socket :=
  let msg := s.message .client msgId
  s.startOp (.write .server msgId msg) (if msg = [] then some (.success [] []) else none)

def resolveServer (s : Socket) (msgId : Nat) : Socket :=
  if s.serverSocket.isOpen ∧ s.prevHost = s.currHost then s.sendMessageToServer msgId
  else s.startOp (.resolve msgId s.currHost) none

/-- `async_connect` closes the socket and opens it again for each endpoint that it tries. -/
def connectToEndpoints (s : Socket) (msgId : Nat) (endpoints : List Entry) : Socket :=
  if endpoints = [] then s.startOp (.connect msgId []) (some (.failure .notFound))
  else { s with serverSocket := .opened }.startOp (.connect msgId endpoints) none

def resolveHandler (s : Socket) (msgId : Nat) (ec : Option ErrorCode) (endpoints : List Entry) : Socket :=
  if s.stopped then s
  else
    match ec with
    | some _ => s.close
    | none => s.connectToEndpoints msgId endpoints

def connectHandler (s : Socket) (msgId : Nat) (ec : Option ErrorCode) : Socket :=
  if s.stopped then s
  else
    match ec with
    | some _ => s.close
    | none => s.sendMessageToServer msgId

def getMessageFromServer (s : Socket) (msgId : Nat) : Socket := s.startOp (.readHeader .server msgId) none

def serverWriteHandler (s : Socket) (msgId : Nat) (ec : Option ErrorCode) : Except Fault Socket :=
  if s.stopped then .ok s
  else
    match ec with
    | some ec => .error (.thrown (.systemError ec))
    | none => .ok (s.getMessageFromServer msgId)

def sendMessageToClient (s : Socket) (msgId : Nat) : Socket :=
  let msg := s.message .server msgId
  s.startOp (.write .client msgId msg) (if msg = [] then some (.success [] []) else none)

/-- The callback that `read_body` is given for the body of a request, and for that of a reply. -/
def callback (s : Socket) : Side → Nat → Socket
  | .client, msgId => s.resolveServer msgId
  | .server, msgId => s.sendMessageToClient msgId

/-- The handler of both body reads. -/
def sharedHandler (s : Socket) (side : Side) (msgId : Nat) (httpBody : Bytes) (ec : Option ErrorCode) :
    Except Fault Socket :=
  let s := s.append side msgId httpBody
  match ec with
  | none => .ok (s.callback side msgId)
  | some .eof => .ok s
  | some .operationAborted => .ok s
  | some ec => .error (.thrown (.systemError ec))

/-- `read_body` of the message whose header `httpHeader` has been read, with what came after it, into the
    string of the side. -/
def readBody (s : Socket) (side : Side) (msgId : Nat) (httpHeader : Bytes) : Except Fault Socket :=
  let httpHeaderPlus := s.message side msgId
  if s.stopped then .ok s
  else
    match identifyBody httpHeader with
    | .none => .ok (s.callback side msgId)
    | .contentLength => do
      let contentLength ← stoul (← parseField httpHeader (ascii "content-length"))
      let limit := subSize contentLength (subSize httpHeaderPlus.length httpHeader.length)
      return s.startOp (.readBody side msgId (some limit) []) (if limit = 0 then some (.success [] []) else none)
    | .chunked =>
      if (findFrom? lastChunk httpHeaderPlus httpHeader.length).isSome then .ok (s.callback side msgId)
      else .ok (s.startOp (.readBody side msgId none []) none)

/-- The version of a request line, what follows the slash of its third word. -/
def httpVersion (request : Bytes) : Bytes :=
  let firstLine := match find? crlf request with
    | some pos => request.take pos
    | none => request
  let (_method, rest) := getWord firstLine
  let (_url, rest) := getWord rest
  let (version, _) := getWord rest
  match find? (ascii "/") version with
  | some pos => version.drop (pos + 1)
  | none => version

def getMessageFromClient (s : Socket) : Socket :=
  let s := { s with messages := s.messages ++ [([], [])] }
  s.startOp (.readHeader .client (s.messages.length - 1)) none

def clientHeaderHandler (s : Socket) (msgId : Nat) (ec : Option ErrorCode) (headerLen : Nat) :
    Except Fault Socket :=
  let s := s.cancelTimer
  if s.stopped then .ok s
  else
    match ec with
    | some ec =>
      if ec = .operationAborted then .ok s
      else if ec = .eof ∧ headerLen = 0 then .ok s.close
      else .error (.thrown (.systemError ec))
    | none => do
      let request := s.message .client msgId
      let version ← stod (httpVersion request)
      if version.gt onePointOne then return s
      let header := request.take headerLen
      s.remoteEndpoint
      let host ← parseField request (ascii "host")
      ({ s with currHost := host }.log (.host msgId request host)).readBody .client msgId header

def serverHeaderHandler (s : Socket) (msgId : Nat) (ec : Option ErrorCode) (headerLen : Nat) :
    Except Fault Socket :=
  if s.stopped then .ok s
  else
    match ec with
    | some ec =>
      if ec = .operationAborted then .ok s
      else if ec = .eof ∧ headerLen = 0 then .ok s
      else if ec = .connectionReset then .ok s.close
      else .error (.thrown (.systemError ec))
    | none => do
      let reply := s.message .server msgId
      let header := reply.take headerLen
      s.remoteEndpoint
      s.readBody .server msgId header

def headerHandler (s : Socket) : Side → Nat → Option ErrorCode → Nat → Except Fault Socket
  | .client => s.clientHeaderHandler
  | .server => s.serverHeaderHandler

def clientWriteHandler (s : Socket) (_msgId : Nat) (ec : Option ErrorCode) : Except Fault Socket :=
  if s.stopped then .ok s
  else
    match ec with
    | some ec => .error (.thrown (.systemError ec))
    | none => .ok { s with prevHost := s.currHost }.getMessageFromClient

def writeHandler (s : Socket) : Side → Nat → Option ErrorCode → Except Fault Socket
  | .client => s.clientWriteHandler
  | .server => s.serverWriteHandler

def start (s : Socket) : Socket := s.asyncWait.getMessageFromClient

end Socket
end HttpProxy
