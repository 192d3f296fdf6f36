import Mathlib.Logic.Function.Basic
import Ydbgo.Lib.Bytes
import Ydbgo.Lib.SortedMap

/-! # The shared stream of an SQL client

`proto.Client` sends all its calls over one bidirectional stream and hands every response to
the call that waits for its id. Calls, receivers and the servers at the far ends of the streams
take their steps in any order.
-/

namespace Ydbgo.Proto

/-! ### Messages -/

structure Request where
  id : ℕ
  sql : Bytes
  deriving DecidableEq

structure ResultPayload where
  type : Bytes
  columns : List Bytes
  rows : List (List Bytes)
  affected : Int64
  note : Bytes
  deriving DecidableEq

structure Response where
  id : ℕ
  ok : Bool
  error : Bytes
  result : Option ResultPayload
  deriving DecidableEq

structure RpcRow where
  values : List Bytes
  deriving DecidableEq

structure RpcPayload where
  type : Bytes
  columns : List Bytes
  rows : List RpcRow
  affected : Int64
  note : Bytes
  deriving DecidableEq

structure RpcResponse where
  id : ℕ
  ok : Bool
  error : Bytes
  result : Option RpcPayload
  deriving DecidableEq

def toProtoPayload (p : RpcPayload) : ResultPayload :=
  { type := p.type, columns := p.columns, affected := p.affected, note := p.note,
    rows := p.rows.map RpcRow.values }

def toProtoResponse (r : RpcResponse) : Response :=
  { id := r.id, ok := r.ok, error := r.error, result := r.result.map toProtoPayload }

def toRPCPayload (p : ResultPayload) : RpcPayload :=
  { type := p.type, columns := p.columns, affected := p.affected, note := p.note,
    rows := p.rows.map RpcRow.mk }

def toRPCResponse (r : Response) : RpcResponse :=
  { id := r.id, ok := r.ok, error := r.error, result := r.result.map toRPCPayload }

theorem toProtoPayload_toRPCPayload (p : ResultPayload) : toProtoPayload (toRPCPayload p) = p := by
  obtain ⟨type, columns, rows, affected, note⟩ := p
  simp only [toProtoPayload, toRPCPayload, List.map_map, ResultPayload.mk.injEq, true_and, and_true]
  exact List.map_id rows

@[simp] theorem toProtoResponse_toRPCResponse (r : Response) :
    toProtoResponse (toRPCResponse r) = r := by
  obtain ⟨id, ok, error, result⟩ := r
  simp only [toProtoResponse, toRPCResponse, Option.map_map, Response.mk.injEq, true_and]
  cases result with
  | none => rfl
  | some p => exact congrArg some (toProtoPayload_toRPCPayload p)

@[simp] theorem toRPCResponse_id (r : Response) : (toRPCResponse r).id = r.id := rfl

/-! ### The parties -/

/-- A stream and the server at its far end: the requests on their way, those being handled, the
responses on their way back, and what has been answered. -/
structure Stream where
  requests : List Request := []
  handling : List Request := []
  responses : List RpcResponse := []
  answered : List (Request × Response) := []

/-- Where the goroutine of a `readLoop` stands. -/
inductive Reader
  | idle
  | started
  | reading (stream : ℕ)
  | received (stream : ℕ) (resp : RpcResponse)
  | delivering (stream : ℕ) (resp : RpcResponse) (ch : ℕ)
  | done

inductive Return
  | response (r : Response)
  | closed
  | timeout
  | failed

inductive Status
  | waiting
  | returned (r : Return)

/-- A call of `Execute`, with the request it has sent and the stream it went to. -/
structure Call where
  sql : Bytes
  sent : Option (ℕ × Request)
  status : Status

/-- The client's fields, its channels and goroutines, and the streams it has opened. A channel
bears the number of its call, the `nil` of a channel is `none`. -/
structure System where
  stream : Option ℕ := none
  pending : Option (SortedMap ℕ ℕ) := none
  id : ℕ := 0
  ncalls : ℕ := 0
  calls : ℕ → Option Call := fun _ => none
  chans : ℕ → List (Option RpcResponse) := fun _ => []
  opened : ℕ := 0
  streams : ℕ → Stream := fun _ => {}
  readers : ℕ → Reader := fun _ => .idle

inductive Act
  | execute (sql : Bytes) (opens sends arrives : Bool)
  | receive (call : ℕ)
  | timeout (call : ℕ)
  | start (reader : ℕ)
  | recv (reader : ℕ)
  | recvError (reader : ℕ)
  | lookup (reader : ℕ)
  | deliver (reader : ℕ)
  | serverRecv (stream : ℕ)
  | serverAnswer (stream handler : ℕ) (ok : Bool) (error : Bytes) (result : Option ResultPayload)
      (sends : Bool)
  | close

/-- What becomes of a step: a new state, a send on a full channel, a panic, or a step that its
goroutine cannot take. -/
inductive Outcome
  | next (x : System)
  | blocked
  | panicked
  | disabled

/-! ### The client -/

/-- The integers of `c.id` wrap around. -/
def idSize : ℕ := UInt64.size

/-- A send on a channel with room for one message. -/
def send (chans : ℕ → List (Option RpcResponse)) (ch : ℕ) (m : Option RpcResponse) :
    Option (ℕ → List (Option RpcResponse)) :=
  if (chans ch).length < 1 then some (Function.update chans ch (chans ch ++ [m])) else none

namespace System

variable (x : System)

def close : System :=
  { x with stream := none, pending := none }

/-- The stream to send on, and whether there is one. -/
def ensureStream (opens : Bool) : Option (System × ℕ) :=
  match x.stream with
  | some s => some (x, s)
  | none =>
    if opens then
      some ({ x with
        stream := some x.opened
        pending := some (x.pending.getD .empty)
        opened := x.opened + 1
        readers := Function.update x.readers x.opened .started }, x.opened)
    else none

def record (c : Call) : System :=
  { x with ncalls := x.ncalls + 1, calls := Function.update x.calls x.ncalls (some c) }

def withStream (s : ℕ) (st : Stream) : System :=
  { x with streams := Function.update x.streams s st }

def arrive (s : ℕ) (q : Request) (arrives : Bool) : System :=
  x.withStream s { x.streams s with
    requests := (x.streams s).requests ++ if arrives then [q] else [] }

/-- A call up to where it gives the lock back. A send that fails may have reached the server. -/
def execute (sql : Bytes) (opens sends arrives : Bool) : Outcome :=
  match x.ensureStream opens with
  | none => .next (x.record ⟨sql, none, .returned .failed⟩)
  | some (x, s) =>
    let id := (x.id + 1) % idSize
    match x.pending with
    | none => .panicked
    | some pending =>
      let x := { x with id := id }.arrive s ⟨id, sql⟩ arrives
      if sends then
        .next ({ x with pending := some (pending.insert id x.ncalls) }.record
          ⟨sql, some (s, ⟨id, sql⟩), .waiting⟩)
      else
        .next ({ x with pending := some (pending.erase id), stream := none }.record
          ⟨sql, some (s, ⟨id, sql⟩), .returned .failed⟩)

def return_ (call : ℕ) (c : Call) (r : Return) : System :=
  { x with calls := Function.update x.calls call (some { c with status := .returned r }) }

def receive (call : ℕ) : Outcome :=
  match x.calls call, x.chans call with
  | some ⟨sql, sent, .waiting⟩, m :: ms =>
    let x := { x with chans := Function.update x.chans call ms }
    .next (x.return_ call ⟨sql, sent, .waiting⟩
      (match m with
        | none => .closed
        | some resp => .response (toProtoResponse resp)))
  | _, _ => .disabled

def timeout (call : ℕ) : Outcome :=
  match x.calls call with
  | some ⟨sql, sent, .waiting⟩ => .next (x.return_ call ⟨sql, sent, .waiting⟩ .timeout)
  | _ => .disabled

def withReader (k : ℕ) (r : Reader) : System :=
  { x with readers := Function.update x.readers k r }

/-- The receiver reads the client's stream, which need not be the one it was started for. A `nil`
stream panics as soon as it is used. -/
def start (k : ℕ) : Outcome :=
  match x.readers k, x.stream with
  | .started, some s => .next (x.withReader k (.reading s))
  | .started, none => .panicked
  | _, _ => .disabled

def recv (k : ℕ) : Outcome :=
  match x.readers k with
  | .reading s =>
    match (x.streams s).responses with
    | [] => .disabled
    | resp :: rest =>
      .next ((x.withStream s { x.streams s with responses := rest }).withReader k
        (.received s resp))
  | _ => .disabled

/-- The channels are told in the order of their ids. -/
def failPending (chans : ℕ → List (Option RpcResponse)) (pending : SortedMap ℕ ℕ) :
    Option (ℕ → List (Option RpcResponse)) :=
  pending.entries.foldlM (fun chans e => send chans e.2 none) chans

def failAll (s : ℕ) : Option System :=
  let x := { x with stream := if x.stream = some s then none else x.stream }
  match x.pending with
  | none => some x
  | some pending =>
    (failPending x.chans pending).map fun chans =>
      { x with pending := some .empty, chans := chans }

def recvError (k : ℕ) : Outcome :=
  match x.readers k with
  | .reading s =>
    match x.failAll s with
    | none => .blocked
    | some x => .next (x.withReader k .done)
  | _ => .disabled

def lookup (k : ℕ) : Outcome :=
  match x.readers k with
  | .received s resp =>
    match x.pending.bind fun pending : SortedMap ℕ ℕ => pending.get resp.id with
    | none => .next (x.withReader k (.reading s))
    | some ch =>
      .next ({ x with pending := x.pending.map fun pending : SortedMap ℕ ℕ => pending.erase resp.id }.withReader k
        (.delivering s resp ch))
  | _ => .disabled

def deliver (k : ℕ) : Outcome :=
  match x.readers k with
  | .delivering s resp ch =>
    match send x.chans ch (some resp) with
    | none => .blocked
    | some chans => .next ({ x with chans := chans }.withReader k (.reading s))
  | _ => .disabled

/-! ### The server -/

def serverRecv (s : ℕ) : Outcome :=
  match (x.streams s).requests with
  | [] => .disabled
  | q :: rest =>
    .next (x.withStream s { x.streams s with
      requests := rest
      handling := (x.streams s).handling ++ [q] })

/-- A handler may end with any outcome, and handlers end in any order: only the id is the
request's. -/
def serverAnswer (s handler : ℕ) (ok : Bool) (error : Bytes) (result : Option ResultPayload)
    (sends : Bool) : Outcome :=
  match (x.streams s).handling[handler]? with
  | none => .disabled
  | some q =>
    let resp : Response := ⟨q.id, ok, error, result⟩
    .next (x.withStream s { x.streams s with
      handling := (x.streams s).handling.eraseIdx handler
      responses := (x.streams s).responses ++ if sends then [toRPCResponse resp] else []
      answered := (x.streams s).answered ++ [(q, resp)] })

def step : Act → Outcome
  | .execute sql opens sends arrives => x.execute sql opens sends arrives
  | .receive call => x.receive call
  | .timeout call => x.timeout call
  | .start k => x.start k
  | .recv k => x.recv k
  | .recvError k => x.recvError k
  | .lookup k => x.lookup k
  | .deliver k => x.deliver k
  | .serverRecv s => x.serverRecv s
  | .serverAnswer s handler ok error result sends => x.serverAnswer s handler ok error result sends
  | .close => .next x.close

end System

/-- A run of the client from its dialling. -/
inductive Runs : List Act → System → Prop
  | start : Runs [] {}
  | step {acts : List Act} {x y : System} {a : Act} : Runs acts x → x.step a = .next y →
      Runs (acts ++ [a]) y

end Ydbgo.Proto
