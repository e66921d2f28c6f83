import FiberMachine.Object.Context
import FiberMachine.Object.Queue
import FiberMachine.Object.Scope

/-!
# Channels

A channel holds its capacity, a queue of buffered values and the list of requests that wait on it.
A request is what a context will do once the channel lets it: whose it is, where the context goes
on, and either the value it sends or where a received value goes. A received value goes onto the
operand stack or, for a case of a select, into the one slot of a frame whose environment is then
entered.

Nothing here touches the ready queue. An operation that makes a context runnable answers it, and
the caller makes it ready.
-/

namespace FiberMachine

open Heap

/-- Which way a value moves. -/
inductive Direction where
  | recv
  | send
  deriving DecidableEq

/-- The name a direction is shown under. -/
def Direction.name : Direction → String
  | .recv => "Recv"
  | .send => "Send"

/-- The word a direction is stored as. -/
def Direction.word : Direction → Word
  | .recv => 0
  | .send => 1

/-- What a request says. -/
structure Request where
  context : Addr
  channel : Addr
  /-- Where the context goes on. -/
  resume : Nat
  direction : Direction
  /-- The value a sender gives. -/
  value : Addr
  /-- The frame a received value goes into; unassigned for the operand stack. -/
  frame : Addr
  /-- The environment that is entered together with the frame. -/
  environment : Addr

namespace Request

def contextField : Nat := 0
def channelField : Nat := 1
def resumeField : Nat := 2
def directionField : Nat := 3
def valueField : Nat := 4
def frameField : Nat := 5
def environmentField : Nat := 6

/-- Store a request. -/
def create (r : Request) : HeapM Addr := do
  let addr ← withRoots [r.context, r.channel, r.value, r.frame, r.environment]
    (allocateTagged .channelRequest 7)
  writeNat addr contextField r.context
  writeNat addr channelField r.channel
  writeNat addr resumeField r.resume
  write addr directionField r.direction.word
  writeNat addr valueField r.value
  writeNat addr frameField r.frame
  writeNat addr environmentField r.environment
  return addr

def contextOf (addr : Addr) : HeapReader Addr := readNat addr contextField

def channelOf (addr : Addr) : HeapReader Addr := readNat addr channelField

def resumeOf (addr : Addr) : HeapReader Nat := readNat addr resumeField

def directionOf (addr : Addr) : HeapReader Direction :=
  return if (← read addr directionField) = Direction.send.word then .send else .recv

def valueOf (addr : Addr) : HeapReader Addr := readNat addr valueField

def frameOf (addr : Addr) : HeapReader Addr := readNat addr frameField

def environmentOf (addr : Addr) : HeapReader Addr := readNat addr environmentField

/-- What a stored request says. -/
def load (addr : Addr) : HeapReader Request := do
  return {
    context := ← contextOf addr
    channel := ← channelOf addr
    resume := ← resumeOf addr
    direction := ← directionOf addr
    value := ← valueOf addr
    frame := ← frameOf addr
    environment := ← environmentOf addr }

end Request

/-- What became of an attempt to send. -/
inductive SendOutcome where
  /-- A waiting receiver has the value and can go on. -/
  | delivered (woken : Addr)
  | buffered
  | wouldBlock

/-- What became of an attempt to receive. -/
inductive RecvOutcome where
  /-- The value, and a waiting sender that can go on. -/
  | received (value : Addr) (woken : Option Addr)
  | wouldBlock

namespace Channel

def capacityField : Nat := 0
def bufferField : Nat := 1
def waitersField : Nat := 2

/-- A channel that buffers up to `capacity` values. -/
def create (capacity : Nat) : HeapM Addr := do
  let buffer ← Queue.create capacity
  let waiters ← withRoots [buffer] LinkedList.create
  let addr ← withRoots [buffer, waiters] (allocateTagged .channel 3)
  writeNat addr capacityField capacity
  writeNat addr bufferField buffer
  writeNat addr waitersField waiters
  return addr

def capacity (addr : Addr) : HeapReader Nat := readNat addr capacityField

/-- The queue of buffered values. -/
def buffer (addr : Addr) : HeapReader Addr := readNat addr bufferField

/-- The list of waiting requests. -/
def waiters (addr : Addr) : HeapReader Addr := readNat addr waitersField

/-- The number of buffered values. -/
def length (addr : Addr) : HeapReader Nat := do
  Queue.length (← buffer addr)

/-- The waiting requests, the oldest first. -/
def waiting (addr : Addr) : HeapReader (List Addr) := do
  LinkedList.values (← waiters addr)

/-- Take the oldest waiting request of a direction. -/
def takeWaiter (addr : Addr) (direction : Direction) : HeapM (Option Addr) := do
  let waiters ← waiters addr
  LinkedList.takeFirst waiters fun r => return (← Request.directionOf r) == direction

/-- Withdraw every request of a context from its channel and clear the context's wait-list. -/
def cancelWaits (context : Addr) : HeapM Unit := do
  let waits ← Context.waitList context
  let registered ← LinkedList.values waits
  registered.forM fun r => do
    if (← tag r) = .channelRequest then
      let waiters ← waiters (← Request.channelOf r)
      let _ ← LinkedList.remove waiters r
  LinkedList.clear waits

/-- Put a received value where a request wants it. -/
def deliver (request context value : Addr) : HeapM Unit := do
  let target ← Request.frameOf request
  if target = unassigned then
    Context.pushOperand context value
  else
    Scope.setSlot target 0 value
    Context.enterEnvironment context (← Request.environmentOf request)

/-- Let the context behind a request go on at the request's resume point, with the received value
if there is one and without any other request. Answers the context. -/
def complete (request : Addr) (value : Option Addr) : HeapM Addr :=
  withRoots [request, value.getD unassigned] do
    let context ← Request.contextOf request
    if let some value := value then deliver request context value
    Context.setPc context (← Request.resumeOf request)
    cancelWaits context
    Context.setBlocked context false
    return context

/-- Send a value if a receiver waits or the buffer has room. -/
def trySend (addr value : Addr) : HeapM SendOutcome := do
  match ← takeWaiter addr .recv with
  | some request => return .delivered (← complete request (some value))
  | none =>
    if ← Queue.tryPush (← buffer addr) value then return .buffered
    return .wouldBlock

/-- Receive the oldest buffered value, whose place a waiting sender's value takes, or else the value
of a waiting sender. -/
def tryRecv (addr : Addr) : HeapM RecvOutcome := do
  let buffer ← buffer addr
  match ← Queue.pop buffer with
  | some value =>
    match ← takeWaiter addr .send with
    | none => return .received value none
    | some request =>
      let promoted ← Request.valueOf request
      let _ ← Queue.tryPush buffer promoted
      let woken ← withRoots [value] (complete request none)
      return .received value (some woken)
  | none =>
    match ← takeWaiter addr .send with
    | none => return .wouldBlock
    | some request =>
      let value ← Request.valueOf request
      let woken ← withRoots [value] (complete request none)
      return .received value (some woken)

/-- Whether a request of another context waits in the other direction than `direction`. -/
def opposes (context : Addr) (direction : Direction) : List Addr → HeapReader Bool
  | [] => pure false
  | r :: rest => do
    if (← Request.directionOf r) ≠ direction then
      if (← Request.contextOf r) ≠ context then return true
    opposes context direction rest

/-- Let a request wait on its channel and enter it in its context's wait-list. -/
def park (request : Addr) : HeapM Unit := do
  let channel ← Request.channelOf request
  let context ← Request.contextOf request
  let direction ← Request.directionOf request
  let waiters ← waiters channel
  if ← opposes context direction (← LinkedList.values waiters) then reject (.mixedWaiters channel)
  LinkedList.pushBack waiters request
  let waits ← Context.waitList context
  withRoots [request] (LinkedList.pushBack waits request)

end Channel

end FiberMachine
