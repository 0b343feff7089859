import Mathlib.Data.Nat.Digits.Lemmas
import Varve.Lib.Json

/-!
# The TypeScript client

The connection of `client.ts` as a machine over the events it can see: those of the socket, the
calls of its user, aborts and timers.
-/

namespace Varve.Typescript

open Text (len)

-- Values and errors

/-- What `decode` returns. A double is given by its value when that is an integer. -/
inductive Value where
  | null
  | bool (b : Bool)
  | number (n : Option Int)
  | bigint (n : Int)
  | string (t : Text)
  | array (items : List Value)
  | object (fields : List (Text × Value))

abbrev Fields := List (Text × Value)

def Fields.get (fields : Fields) (key : String) : Option Value := fields.lookup key.toList

/-- `isRecord`. -/
def Value.record? : Value → Option Fields
  | .object fields => some fields
  | _ => none

def Value.string? : Value → Option Text
  | .string t => some t
  | _ => none

/-- `Number(value)` of a number or a bigint, when it is an integer. -/
def Value.integer? : Value → Option Int
  | .number n => n
  | .bigint n => some n
  | _ => none

def isSafeInteger (n : Int) : Bool := n.natAbs ≤ 9007199254740991

structure RpcError where
  code : Int
  message : Text
deriving DecidableEq

inductive Failure where
  | validation (message : String)
  | connection (message : String)
  | authentication (message : String) (cause : Option Failure)
  | protocol (message : String)
  | limit (message : String)
  | timeout (message : String)
  | abort (message : String) (admitted : Bool)
  | admission (error : RpcError) (rpcId method : Text)
  | rpc (error : RpcError) (rpcId method : Text)
  | ambiguous (message : String) (method rpcId : Text) (requestId : Option Text) (cause : Failure)
  /-- An error of code outside the client. -/
  | external (message : String)

def Failure.isAmbiguous : Failure → Bool
  | .ambiguous .. => true
  | _ => false

def check (p : Prop) [Decidable p] (e : Failure) : Except Failure Unit :=
  if p then .ok () else .error e

def parseRpcError (value : Option Value) : Option RpcError := do
  let fields ← value.bind Value.record?
  let message ← (fields.get "message").bind Value.string?
  let code ← (fields.get "code").bind Value.integer?
  if isSafeInteger code then some ⟨code, message⟩ else none

/-- `validateTimeout`; the default of the options is a positive integer already. -/
def validateTimeout : Option (Option Int) → Except Failure Unit
  | none => .ok ()
  | some n => check (n.any (fun ms => isSafeInteger ms && decide (0 < ms)) = true)
      (.validation "timeoutMs must be a positive safe integer")

/-- `socket.bufferedAmount`. -/
inductive Amount where
  | unavailable
  | value (n : Option Int)

def bufferedBytes : Amount → Except Failure Nat
  | .unavailable => .error (.protocol "WebSocket bufferedAmount is unavailable")
  | .value n =>
    match n.filter fun bytes => isSafeInteger bytes && decide (0 ≤ bytes) with
    | none => .error
        (.protocol "WebSocket bufferedAmount must be a nonnegative safe integer byte count")
    | some bytes => .ok bytes.toNat

-- State

inductive State where
  | connecting
  | authenticating
  | opened
  | closing
  | closed
deriving DecidableEq

inductive Promise where
  | startup
  | request (n : Nat)
  | close
deriving DecidableEq

inductive Outcome where
  | resolved (value : Value)
  | rejected (error : Failure)

inductive Effect where
  | settle (promise : Promise) (outcome : Outcome)
  /-- The frame of a request is handed to the socket. -/
  | send (promise : Nat) (id : Text) (mutation : Bool)
  | closeSocket (reason : String)

structure Startup where
  /-- The error of the timer that is armed. -/
  timer : Option Failure
  abortable : Bool

structure Pending where
  id : Text
  method : Text
  requestId : Option Text
  mutation : Bool
  bytes : Nat
  promise : Nat
  abortable : Bool

structure Client where
  state : State
  pending : List Pending
  pendingBytes : Int
  nextId : Nat
  startup : Option Startup
  closePromise : Bool
  closeResolve : Bool
  /-- The timer of the close promise is armed. -/
  closeTimer : Bool
  /-- The timers of requests that are armed. -/
  timers : List Text
  /-- The listeners are attached to the socket. -/
  listening : Bool
  /-- `connect` has returned the client to its user. -/
  returned : Bool
  /-- The promises that `request` has returned. -/
  calls : Nat
  log : List Effect

structure Config (Params : Type) where
  maxPendingRequests : Nat
  maxPendingBytes : Nat
  maxFrameBytes : Nat
  token : Params
  encode : Text → Text → Params → Except Failure Text
  decode : Text → Option Value

/-- A call of `request`, with what the socket and the abort signal say while it runs. -/
structure Call (Params : Type) where
  method : Text
  params : Params
  mutation : Bool
  requestId : Option Text
  timeoutMs : Option (Option Int)
  /-- The abort signal, and whether it is aborted. -/
  signal : Option Bool
  /-- `socket.readyState === OPEN`. -/
  ready : Bool
  buffered : Amount
  /-- `socket.send` throws. -/
  thrown : Bool

section
variable (pending : Pending)

def ambiguousFailure (cause : Failure) : Failure :=
  let guidance :=
    match pending.requestId with
    | none => "Inspect server state before retrying this mutation."
    | some requestId => "Retry only with the same request ID " ++
        String.ofList (Json.string requestId) ++ " and an identical payload."
  .ambiguous ("The " ++ String.ofList pending.method ++ " outcome is ambiguous. " ++ guidance)
    pending.method pending.id pending.requestId cause

def interruptionFailure (cause : Failure) : Failure :=
  if pending.mutation then ambiguousFailure pending cause else cause

def rpcFailure (error : RpcError) : Failure :=
  if error.code = -32003 then .admission error pending.id pending.method
  else
    let rpc := Failure.rpc error pending.id pending.method
    if pending.mutation = true ∧ error.code = -32000 then ambiguousFailure pending rpc
    else if error.code = -32001 then .authentication (String.ofList error.message) (some rpc)
    else rpc

end

namespace Client

def settle (promise : Promise) (outcome : Outcome) (c : Client) : Client :=
  { c with log := c.log ++ [.settle promise outcome] }

def find (id : Text) (c : Client) : Option Pending := c.pending.find? fun p => p.id = id

def removePending (p : Pending) (c : Client) : Client :=
  if (c.find p.id).isSome then
    { c with
      pending := c.pending.filter fun q => q.id ≠ p.id
      timers := c.timers.filter (· ≠ p.id)
      pendingBytes := c.pendingBytes - p.bytes }
  else c

def finish (p : Pending) (outcome : Outcome) (c : Client) : Client :=
  (c.removePending p).settle (.request p.promise) outcome

def interrupt (cause : Failure) (c : Client) (p : Pending) : Client :=
  c.finish p (.rejected (interruptionFailure p cause))

def rejectAll (cause : Failure) (c : Client) : Client := c.pending.foldl (interrupt cause) c

def rejectStartup (error : Failure) (c : Client) : Client :=
  match c.startup with
  | none => c
  | some _ => { c with startup := none }.settle .startup (.rejected error)

def failConnection (error : Failure) (c : Client) : Client :=
  if c.state = .closed then c
  else
    { (({ c with state := .closed }.rejectStartup error).rejectAll error) with
      closeTimer := false
      listening := false }

def finalizeClosed (c : Client) : Client :=
  { c with closeTimer := false, state := .closed, closeResolve := false, listening := false }

def closeSocket (reason : String) (c : Client) : Client :=
  { c with log := c.log ++ [.closeSocket reason] }

def safeClose (c : Client) : Client := c.closeSocket "client failure"

/-- `failConnection` and `safeClose`. -/
def fail (error : Failure) (c : Client) : Client := (c.failConnection error).safeClose

-- Events of the socket

variable {Params : Type}

def sendAuth (cfg : Config Params) (buffered : Amount) (thrown : Option Failure) :
    Except Failure Unit := do
  let frame ← cfg.encode "auth".toList "auth".toList cfg.token
  check (len frame ≤ cfg.maxFrameBytes) (.limit "authentication frame exceeds maxFrameBytes")
  let bytes ← bufferedBytes buffered
  check ((len frame : Int) ≤ cfg.maxPendingBytes - bytes)
    (.limit "authentication frame exceeds maxPendingBytes")
  match thrown with
  | none => .ok ()
  | some e => .error e

def onOpen (cfg : Config Params) (protocol : Text) (buffered : Amount) (thrown : Option Failure)
    (c : Client) : Client :=
  match c.state, c.startup with
  | .connecting, some startup =>
    if protocol ≠ "varve.v1".toList then
      { c with startup := some { startup with timer := none } }.fail
        (.protocol "server did not negotiate varve.v1")
    else
      let c := { c with
        state := .authenticating
        startup := some
          { startup with timer := some (.authentication "authentication timed out" none) } }
      match sendAuth cfg buffered thrown with
      | .ok () => c
      | .error e => c.fail e
  | _, _ => c

def parseResponse : Option Value → Except Failure (Text × Fields)
  | none => .error (.protocol "server sent invalid JSON")
  | some value =>
    match value.record? with
    | none => .error (.protocol "server sent an invalid JSON-RPC response")
    | some fields =>
      match (fields.get "jsonrpc").bind Value.string?, (fields.get "id").bind Value.string? with
      | some version, some id =>
        if version = "2.0".toList then .ok (id, fields)
        else .error (.protocol "server sent an invalid JSON-RPC response")
      | _, _ => .error (.protocol "server sent an invalid JSON-RPC response")

/-- The frame of a message as a response with its id; no text is a frame that is not text. -/
def readResponse (cfg : Config Params) : Option Text → Except Failure (Text × Fields)
  | none => .error (.protocol "Varve requires text WebSocket frames")
  | some text => do
    check (len text ≤ cfg.maxFrameBytes) (.protocol "response frame exceeds maxFrameBytes")
    parseResponse (cfg.decode text)

def protocolOne (fields : Fields) : Bool :=
  (((fields.get "result").bind Value.record?).bind fun result =>
    (result.get "protocol").bind Value.integer?) = some 1

def handleAuth (id : Text) (fields : Fields) (c : Client) : Client :=
  if id ≠ "auth".toList then
    c.fail (.protocol "authentication response used an unexpected ID")
  else
    match parseRpcError (fields.get "error") with
    | some error => c.fail (.authentication (String.ofList error.message) none)
    | none =>
      if protocolOne fields = false then
        c.fail (.protocol "server returned an unsupported protocol version")
      else
        match c.startup with
        | none => { c with state := .opened }
        | some _ =>
          { c with state := .opened, startup := none, returned := true }.settle .startup
            (.resolved .null)

def onResponse (p : Pending) (fields : Fields) (c : Client) : Client :=
  match fields.get "result", fields.get "error" with
  | some result, none => c.finish p (.resolved result)
  | none, some error =>
    match parseRpcError (some error) with
    | none => c.fail (.protocol "server sent an invalid JSON-RPC error")
    | some e => c.finish p (.rejected (rpcFailure p e))
  | _, _ => c.fail
      (.protocol "JSON-RPC response must contain exactly one of result or error")

def onMessage (cfg : Config Params) (data : Option Text) (c : Client) : Client :=
  match readResponse cfg data with
  | .error e => c.fail e
  | .ok (id, fields) =>
    match c.state with
    | .authenticating => c.handleAuth id fields
    | .opened =>
      match c.find id with
      | none => c
      | some p => c.onResponse p fields
    | _ => c

def onClose (c : Client) : Client :=
  match c.state with
  | .closing =>
    if c.closeResolve then c.finalizeClosed.settle .close (.resolved .null) else c.finalizeClosed
  | .closed => c
  | _ => c.failConnection (.connection "WebSocket disconnected")

def onError (c : Client) : Client :=
  match c.state with
  | .closed | .closing => c
  | _ => c.fail (.connection "WebSocket transport error")

def digit36 (n : Nat) : Char := if n < 10 then Char.ofNat (48 + n) else Char.ofNat (87 + n)

def requestId (n : Nat) : Text := "v1-".toList ++ ((Nat.digits 36 n).map digit36).reverse

def refuse (error : Failure) (c : Client) : Client :=
  { c with calls := c.calls + 1 }.settle (.request c.calls) (.rejected error)

def newPending (call : Call Params) (id : Text) (bytes : Nat) (c : Client) : Pending where
  id := id
  method := call.method
  requestId := call.requestId
  mutation := call.mutation
  bytes := bytes
  promise := c.calls
  abortable := call.signal.isSome

def enqueue (p : Pending) (c : Client) : Client :=
  { c with
    calls := c.calls + 1
    timers := p.id :: c.timers
    pending := c.pending ++ [p]
    pendingBytes := c.pendingBytes + p.bytes
    log := c.log ++ [.send p.promise p.id p.mutation] }

def accept (call : Call Params) (id : Text) (bytes : Nat) (c : Client) : Client :=
  let p := c.newPending call id bytes
  if call.thrown then (c.enqueue p).interrupt (.connection "WebSocket send failed") p
  else c.enqueue p

def submit (cfg : Config Params) (call : Call Params) (buffered : Nat) (c : Client) : Client :=
  let id := requestId c.nextId
  let c := { c with nextId := c.nextId + 1 }
  match cfg.encode id call.method call.params with
  | .error e => c.refuse e
  | .ok frame =>
    if cfg.maxFrameBytes < len frame then
      c.refuse (.limit "request exceeds maxFrameBytes; request was not sent")
    else if (cfg.maxPendingBytes : Int) - buffered - c.pendingBytes < len frame then
      c.refuse (.limit "maxPendingBytes exceeded; request was not sent")
    else c.accept call id (len frame)

def request (cfg : Config Params) (call : Call Params) (c : Client) : Client :=
  if c.state ≠ .opened ∨ call.ready = false then
    c.refuse (.connection "client is not connected")
  else if call.signal = some true then
    c.refuse (.abort "request aborted before admission" false)
  else
    match validateTimeout call.timeoutMs with
    | .error _ => c -- thrown to the caller, who gets no promise
    | .ok () =>
      if cfg.maxPendingRequests ≤ c.pending.length then
        c.refuse (.limit "maxPendingRequests exceeded; request was not sent")
      else
        match bufferedBytes call.buffered with
        | .error e => (c.fail e).refuse e
        | .ok buffered => c.submit cfg call buffered

def close (timeoutMs : Option (Option Int)) (thrown : Bool) (c : Client) : Client :=
  if c.state = .closed ∨ c.closePromise = true then c
  else
    match validateTimeout timeoutMs with
    | .error _ => c
    | .ok () =>
      let c := { c with state := .closing }.rejectAll
        (.connection "client closed before a response was received")
      let c := { c with closePromise := true, closeResolve := true, closeTimer := true }
      if thrown then
        c.finalizeClosed.settle .close (.rejected (.connection "WebSocket close failed"))
      else c.closeSocket "client close"

def requestTimer (id : Text) (c : Client) : Client :=
  if id ∈ c.timers then
    match c.find id with
    | none => { c with timers := c.timers.filter (· ≠ id) }
    | some p => c.interrupt (.timeout "accepted request timed out locally") p
  else c

def requestAbort (id : Text) (c : Client) : Client :=
  match c.find id with
  | none => c
  | some p =>
    if p.abortable then c.interrupt (.abort "accepted request aborted locally" true) p else c

def startupTimer (c : Client) : Client :=
  match c.startup.bind Startup.timer with
  | none => c
  | some e => c.fail e

def startupAbort (c : Client) : Client :=
  if c.startup.any Startup.abortable then
    c.fail (.abort "connection or authentication aborted" false)
  else c

def closeTimeout (c : Client) : Client :=
  if c.closeTimer then
    c.finalizeClosed.settle .close (.rejected (.connection "WebSocket close timed out"))
  else c

end Client

inductive Event (Params : Type) where
  | opened (protocol : Text) (buffered : Amount) (thrown : Option Failure)
  | message (data : Option Text)
  | close
  | error
  | request (call : Call Params)
  | closeCall (timeoutMs : Option (Option Int)) (thrown : Bool)
  | requestTimer (id : Text)
  | requestAbort (id : Text)
  | startupTimer
  | startupAbort
  | closeTimer

def Client.new : Client :=
  ⟨.connecting, [], 0, 1, none, false, false, false, [], true, false, 0, []⟩

def Client.initializeWith (signal : Option Bool) (c : Client) : Client :=
  if signal = some true then
    (c.fail (.abort "connection aborted before opening" false)).settle .startup
      (.rejected (.abort "connection aborted before opening" false))
  else
    let timer := Failure.connection "WebSocket connect timed out"
    { c with startup := some ⟨some timer, signal.isSome⟩ }

variable {Params : Type}

def step (cfg : Config Params) (c : Client) : Event Params → Client
  | .opened protocol buffered thrown =>
    if c.listening then c.onOpen cfg protocol buffered thrown else c
  | .message data => if c.listening then c.onMessage cfg data else c
  | .close => if c.listening then c.onClose else c
  | .error => if c.listening then c.onError else c
  | .request call => if c.returned then c.request cfg call else c
  | .closeCall timeoutMs thrown => if c.returned then c.close timeoutMs thrown else c
  | .requestTimer id => c.requestTimer id
  | .requestAbort id => c.requestAbort id
  | .startupTimer => c.startupTimer
  | .startupAbort => c.startupAbort
  | .closeTimer => c.closeTimeout

def run (cfg : Config Params) (signal : Option Bool) (events : List (Event Params)) : Client :=
  events.foldl (step cfg) (Client.new.initializeWith signal)

end Varve.Typescript
