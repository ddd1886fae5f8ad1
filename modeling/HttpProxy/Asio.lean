import HttpProxy.Cpp

/-! What the program uses of Boost.Asio: the operations that it starts, as they are while they are outstanding,
    and the timer.

    A composed operation (`async_read_until`, `async_read`, `async_write`, `async_connect` over a list of
    endpoints) is a loop of low-level steps. A step first waits for the peer; when it has completed, its
    completion is queued until a thread runs it, which then starts another step or calls the final handler. -/

namespace HttpProxy

/-- The two peers of a session, each with its socket. -/
inductive Side where
  | client
  | server
  deriving DecidableEq, Repr

def Side.other : Side → Side
  | client => server
  | server => client

theorem Side.other_other (side : Side) : side.other.other = side := by cases side <;> rfl

theorem Side.other_injective : Function.Injective Side.other :=
  Function.LeftInverse.injective Side.other_other

structure Endpoint where
  address : Nat
  port : Nat
  deriving DecidableEq, Repr

/-- An entry of the results of a resolver: an endpoint with the names it was resolved from. -/
structure Entry where
  endpoint : Endpoint
  hostName : Bytes
  serviceName : Bytes
  deriving DecidableEq, Repr

/-- The state of `server_socket`; a socket whose connection failed stays open. -/
inductive ServerSocket where
  | closed
  | opened
  | connected (peer : Entry)
  deriving DecidableEq, Repr

def ServerSocket.isOpen : ServerSocket → Bool
  | .closed => false
  | _ => true

/-- An outstanding operation, with what its final handler captured. -/
inductive Op where
  /-- `async_read_until` of a header, into the string `messages[msgId]` holds for the side. -/
  | readHeader (side : Side) (msgId : Nat)
  /-- `async_read` up to `limit` bytes, or `async_read_until` where there is none, into `http_body`. -/
  | readBody (side : Side) (msgId : Nat) (limit : Option Nat) (httpBody : Bytes)
  | resolve (msgId : Nat) (host : Bytes)
  /-- `async_connect` to the first of the endpoints; those after it are still to be tried. -/
  | connect (msgId : Nat) (endpoints : List Entry)
  /-- `async_write` to the side's socket, with the bytes not yet written. -/
  | write (side : Side) (msgId : Nat) (rest : Bytes)
  deriving DecidableEq, Repr

namespace Op

def msgId : Op → Nat
  | readHeader _ k | readBody _ k _ _ | resolve k _ | connect k _ | write _ k _ => k

/-- The socket that an operation uses. -/
def socket : Op → Option Side
  | readHeader side _ | readBody side _ _ _ | write side _ _ => some side
  | connect _ _ => some .server
  | resolve _ _ => none

/-- Whether an operation takes bytes off the socket of a side. -/
def reads (side : Side) : Op → Bool
  | readHeader side' _ | readBody side' _ _ _ => side' = side
  | _ => false

end Op

/-- How a low-level step completes: with the bytes it moved and the endpoints it found, or with an error. -/
inductive Completion where
  | success (data : Bytes) (endpoints : List Endpoint)
  | failure (ec : ErrorCode)
  deriving DecidableEq, Repr

/-- An operation with its low-level step: the step waits, or its completion is queued. -/
structure Outstanding where
  op : Op
  completion : Option Completion
  deriving DecidableEq, Repr

/-- The completions that the peer or the resolver can give to a waiting step. A read delivers at least one
    byte and never more than its buffer takes, a write a part of what is left; only `cancel` aborts. -/
def Op.allows : Op → Completion → Bool
  | _, .failure ec => ec ≠ .operationAborted
  | readHeader _ _, .success data endpoints => data ≠ [] && endpoints = []
  | readBody _ _ limit httpBody, .success data endpoints =>
    data ≠ [] && endpoints = [] && limit.all fun n => httpBody.length + data.length ≤ n
  | resolve _ _, .success data _ => data = []
  | connect _ _, .success data endpoints => data = [] && endpoints = []
  | write _ _ rest, .success data endpoints => data ≠ [] && data.isPrefixOf rest && endpoints = []

/-- `cancel` on the socket of a side: a step that waits on it is aborted, a queued completion stays. -/
def Outstanding.cancel (side : Side) (o : Outstanding) : Outstanding :=
  if o.op.socket = some side ∧ o.completion = none then { o with completion := some (.failure .operationAborted) } else o

/-- A `steady_timer`: its expiry, how many waits are pending, and the queued completions of waits. -/
structure Timer where
  expiry : Nat
  pending : Nat
  queue : List (Option ErrorCode)
  deriving DecidableEq, Repr

namespace Timer

def asyncWait (t : Timer) : Timer := { t with pending := t.pending + 1 }

/-- `cancel` aborts the pending waits and leaves the expiry as it is. -/
def cancel (t : Timer) : Timer :=
  { t with pending := 0, queue := t.queue ++ List.replicate t.pending (some .operationAborted) }

/-- The pending waits of an expired timer complete. -/
def expire (t : Timer) : Timer := { t with pending := 0, queue := t.queue ++ List.replicate t.pending none }

end Timer

/-- The nanoseconds of `std::chrono::seconds(15)`. -/
def timeout : Nat := 15 * 10 ^ 9

end HttpProxy
