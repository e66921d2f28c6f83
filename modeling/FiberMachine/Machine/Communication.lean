import FiberMachine.Machine.Basic

/-!
# Communication

Instructions on channels. An operation that cannot go through at once parks a request that says how
its context goes on, and blocks the context; whoever completes the request later moves the value
and makes the context ready. Operations on the nil channel block for ever. A select takes one case
that is ready, in a drawn order; without one it takes the default, and without a default it parks
on all its channels.
-/

namespace FiberMachine.Machine

open Heap

/-- Make a channel with the capacity on the stack, or without a buffer. -/
def execMakeChan (context : Addr) (buffered : Bool) : MachineM Unit := do
  let capacity ← if buffered then popInt context else pure 0
  if capacity < 0 then abort (.invalidLength .channelCapacity capacity.toInt)
  let channel ← Channel.create capacity.toInt.toNat
  push context channel

/-- The object must be a channel or nil. Answers whether it is a channel. -/
def expectChannel (addr : Addr) : HeapReader Bool := do
  if addr = unassigned then return false
  expect addr .channel
  return true

/-- Block on the nil channel. -/
def blockForever (context : Addr) : MachineM Outcome := do
  note .debug fun _ => s!"context @{context} blocks forever on a nil channel"
  Context.setBlocked context true
  return .block

/-- Park a request and block its context. -/
def parkRequest (r : Request) : MachineM Outcome := do
  let request ← Request.create r
  Channel.park request
  Context.setBlocked r.context true
  note .trace fun _ =>
    s!"context @{r.context} parked {r.direction.name} on channel @{r.channel}"
  return .block

/-- Wake a context if there is one. -/
def wakeOption : Option Addr → MachineM Outcome
  | none => pure .proceed
  | some context => do
    wake context
    return .proceed

/-- The request of a context that sends a value. -/
def sendRequest (context channel value : Addr) (resume : Nat) : Request where
  context := context
  channel := channel
  resume := resume
  direction := .send
  value := value
  frame := unassigned
  environment := unassigned

/-- The request of a context that receives a value, into a frame or onto its operand stack. -/
def recvRequest (context channel : Addr) (resume : Nat) (frame env : Addr) : Request where
  context := context
  channel := channel
  resume := resume
  direction := .recv
  value := unassigned
  frame := frame
  environment := env

/-- `[channel, value]`: send a copy of the value. -/
def execSend (context : Addr) (resume : Nat) : MachineM Outcome := do
  let value ← pop context
  let channel ← pop context
  if ← expectChannel channel then
    let copy ← protecting (Value.copy value)
    match ← Channel.trySend channel copy with
    | .delivered woken => wakeOption (some woken)
    | .buffered => return .proceed
    | .wouldBlock => parkRequest (sendRequest context channel copy resume)
  else
    blockForever context

/-- `[channel]`: receive a value onto the operand stack. -/
def execRecv (context : Addr) (resume : Nat) : MachineM Outcome := do
  let channel ← pop context
  if ← expectChannel channel then
    match ← Channel.tryRecv channel with
    | .received value woken =>
      push context value
      wakeOption woken
    | .wouldBlock => parkRequest (recvRequest context channel resume unassigned unassigned)
  else
    blockForever context

/-- `[channel, value]`: make a case of a select that sends a copy of the value. -/
def execSelectSend (context : Addr) (target : Nat) : MachineM Unit := do
  let value ← pop context
  let channel ← pop context
  let _ ← expectChannel channel
  let copy ← protecting (Value.copy value)
  let request ← Request.create (sendRequest context channel copy target)
  push context request

/-- `[channel]`: make a case of a select that receives into a frame of its own. -/
def execSelectRecv (context : Addr) (pc target : Nat) : MachineM Unit := do
  let channel ← pop context
  let _ ← expectChannel channel
  let frame ← protecting (Scope.newFrame 1)
  let env ← Context.environment context
  let scope ← protecting (Scope.extend env frame)
  noteOrigin frame pc
  let request ← Request.create (recvRequest context channel target frame scope)
  push context request

/-- Try one case. Answers the contexts to wake, or `none` if the case is not ready. -/
def tryCase (request : Addr) : HeapM (Option (Option Addr)) := do
  let channel ← Request.channelOf request
  if channel = unassigned then return none
  match ← Request.directionOf request with
  | .send =>
    let value ← Request.valueOf request
    match ← Channel.trySend channel value with
    | .delivered woken =>
      let _ ← Channel.complete request none
      return some (some woken)
    | .buffered =>
      let _ ← Channel.complete request none
      return some none
    | .wouldBlock => return none
  | .recv =>
    match ← Channel.tryRecv channel with
    | .received value woken =>
      let _ ← Channel.complete request (some value)
      return some woken
    | .wouldBlock => return none

/-- Take the first case that is ready. -/
def takeReady : List Addr → HeapM (Option (Option Addr))
  | [] => pure none
  | request :: rest => do
    match ← tryCase request with
    | some woken => return some woken
    | none => takeReady rest

/-- Park on every case whose channel is not nil. -/
def parkAll : List Addr → HeapM Unit
  | [] => pure ()
  | request :: rest => do
    if (← Request.channelOf request) ≠ unassigned then Channel.park request
    parkAll rest

/-- Choose among the given cases in their order. -/
def selectAmong (context : Addr) (requests : List Addr) (default? : Option Nat) :
    MachineM Outcome := do
  match ← takeReady requests with
  | some woken => wakeOption woken
  | none =>
    match default? with
    | some target =>
      Context.setPc context target
      return .proceed
    | none =>
      parkAll requests
      Context.setBlocked context true
      note .trace fun _ =>
        s!"context @{context} blocked in select over {requests.length} cases"
      return .block

/-- A drawn order of the given cases. -/
def shuffled (requests : List Addr) : MachineM (List Addr) :=
  modifyGet fun m =>
    let (requests, generator) := m.generator.shuffle requests
    (requests, { m with generator := generator })

/-- `[case...]`: take a ready case, the default, or wait for one of them. -/
def execSelect (context : Addr) (cases : Nat) (default? : Option Nat) : MachineM Outcome := do
  let requests ← popMany context cases
  requests.forM fun r => (expect r .channelRequest : MachineM Unit)
  selectAmong context (← shuffled requests) default?

end FiberMachine.Machine
