import FiberMachine.Object.Value
import FiberMachine.Proofs.Traffic

/-!
# A store without addresses

The ideal machine keeps its objects in a store that only grows. Objects are named by their position and hold
lists where the heap has blocks that refer to each other, so there is nothing to collect and nothing to
run out of. An operation that meets an object of a kind it cannot work on goes wild; what the heap does
then is not described. The operations on channels answer what they note besides. Copying follows the heap's order of allocations,
since a later object must not be there before an earlier one, and goes wild on an array inside itself. What is printed of a value is
known unless an address is part of it; as in the heap, a value that is nested too deep to be printed is a fault, so printing depends
on a limit.
-/

namespace FiberMachine.Ideal

/-- The name of an object. -/
abbrev Ref := Nat

/-- The registers of a context. -/
structure Fiber where
  pc : Nat
  /-- The operands, the bottom one first. -/
  operands : List Ref
  /-- Saved environments and return markers, the oldest first. -/
  returns : List Ref
  environment : Ref
  blocked : Bool
  /-- The requests and wait groups that the context waits for. -/
  waits : List Ref
  id : Nat

/-- The state of a channel. -/
structure Duct where
  capacity : Nat
  /-- The buffered values, the oldest first. -/
  buffer : List Ref
  /-- The waiting requests, the oldest first. -/
  waiters : List Ref

/-- What a closure consists of. -/
structure Code where
  entry : Nat
  arity : Nat
  environment : Ref
  declaration : Nat

/-- An object. -/
inductive Obj where
  | unassigned
  /-- A boxed number or truth value, or a return marker. -/
  | number (t : Tag) (w : Word)
  | text (bytes : List UInt8)
  /-- An array, a frame or an environment. -/
  | sequence (t : Tag) (items : List Ref)
  | slice (array : Ref) (first stop : Nat)
  | context (f : Fiber)
  | channel (d : Duct)
  | request (r : Request)
  | func (c : Code)
  | method (receiver name : Ref)
  | waitGroup (counter : Word) (waiters : List Ref)

/-- The kind of an object. -/
def Obj.tag : Obj → Tag
  | .unassigned => .unassigned
  | .number t _ => t
  | .text _ => .string
  | .sequence t _ => t
  | .slice _ _ _ => .slice
  | .context _ => .context
  | .channel _ => .channel
  | .request _ => .channelRequest
  | .func _ => .func
  | .method _ _ => .method
  | .waitGroup _ _ => .waitGroup

/-! What an object is, if it is of one kind. -/

def Obj.word? : Obj → Option Word
  | .number _ w => some w
  | _ => none

def Obj.bytes? : Obj → Option (List UInt8)
  | .text bs => some bs
  | _ => none

def Obj.items? : Obj → Option (Tag × List Ref)
  | .sequence t xs => some (t, xs)
  | _ => none

def Obj.slice? : Obj → Option (Ref × Nat × Nat)
  | .slice array first stop => some (array, first, stop)
  | _ => none

def Obj.fiber? : Obj → Option Fiber
  | .context f => some f
  | _ => none

def Obj.duct? : Obj → Option Duct
  | .channel d => some d
  | _ => none

def Obj.request? : Obj → Option Request
  | .request r => some r
  | _ => none

def Obj.code? : Obj → Option Code
  | .func c => some c
  | _ => none

def Obj.method? : Obj → Option (Ref × Ref)
  | .method receiver name => some (receiver, name)
  | _ => none

def Obj.group? : Obj → Option (Word × List Ref)
  | .waitGroup counter waiters => some (counter, waiters)
  | _ => none

/-- The objects, and those that a collection would start from. -/
structure Store where
  objects : List Obj
  contexts : List Ref
  temporaries : List Ref

/-- Why an operation did not finish. -/
inductive Lapse where
  /-- An error that belongs to the operation's contract; addresses in it are erased. -/
  | error (cause : MachineError)
  /-- An assertion that a program can break. -/
  | fault
  /-- An assertion that must not break. -/
  | wild

abbrev StoreM := EStateM Lapse Store

end Ideal

/-- An error without the addresses in it. -/
def HeapError.erase : HeapError → HeapError
  | .unexpectedTag _ expected found => .unexpectedTag 0 expected found
  | .mixedWaiters _ => .mixedWaiters 0
  | e => e

/-- An error without the addresses in it. -/
def MachineError.erase : MachineError → MachineError
  | .heap cause => .heap cause.erase
  | e => e

namespace Ideal

/-- What is stored of a number. -/
def wrap (n : Nat) : Nat := n % wordLimit

namespace Store

/-- The objects from which all live ones can be reached. -/
def roots (s : Store) : List Ref := s.contexts ++ s.temporaries

/-- The store with an object replaced. -/
def set (s : Store) (r : Ref) (o : Obj) : Store := { s with objects := s.objects.set r o }

/-- The store with one more object. -/
def push (s : Store) (o : Obj) : Store := { s with objects := s.objects ++ [o] }

end Store

variable {α : Type}

/-- Fail for a cause that belongs to the operation's contract. -/
def reject (cause : HeapError) : StoreM α := throw (.error (.heap cause))

def wild : StoreM α := throw .wild

def fault : StoreM α := throw .fault

/-- What `view` sees of the object named `r`. -/
def look (view : Obj → Option α) (r : Ref) : StoreM α := fun s =>
  match s.objects[r]?.bind view with
  | some x => .ok x s
  | none => .error .wild s

/-- Replace an object. -/
def replace (r : Ref) (o : Obj) : StoreM Unit := modify (·.set r o)

/-- Make an object. -/
def add (o : Obj) : StoreM Ref := fun s => .ok s.objects.length (s.push o)

def tag (r : Ref) : StoreM Tag := look (fun o => some o.tag) r

/-- Fail unless the object has the tag `expected`. -/
def expect (r : Ref) (expected : Tag) : StoreM Unit := do
  let found ← tag r
  if found ≠ expected then reject (.unexpectedTag 0 expected found)

def expectListable (length : Nat) : StoreM Unit := if length * 8 < hostLimit then pure () else fault

/-- Protect an object until the roots are released. -/
def pushRoot (r : Ref) : StoreM Unit := modify fun s => { s with temporaries := s.temporaries ++ [r] }

/-- Run an action with more objects protected. -/
def withRoots (rs : List Ref) (action : StoreM α) : StoreM α := fun s =>
  match action { s with temporaries := s.temporaries ++ rs } with
  | .ok a s' => .ok a { s' with temporaries := s'.temporaries.take s.temporaries.length }
  | .error e s' => .error e s'

def registerContext (c : Ref) : StoreM Unit := modify fun s => { s with contexts := s.contexts ++ [c] }

def retireContext (c : Ref) : StoreM Unit := modify fun s => { s with contexts := s.contexts.erase c }

/-- The position that `index` names among `n`; others are rejected. -/
def within (index : Int) (n : Nat) : StoreM Nat := do
  if index < 0 ∨ (n : Int) ≤ index then reject (.indexOutOfRange index n)
  return index.toNat

/-! ### Numbers and strings -/

/-- The word in a box. -/
def word (r : Ref) : StoreM Word := look Obj.word? r

def newInt (v : Int64) : StoreM Ref := add (.number .int v.toUInt64)

def newFloat (v : Binary64) : StoreM Ref := add (.number .float v.bits)

def newBool (v : Bool) : StoreM Ref := add (.number .bool v.toUInt64)

def int (r : Ref) : StoreM Int64 := return (← word r).toInt64

def float (r : Ref) : StoreM Binary64 := return ⟨← word r⟩

def bool (r : Ref) : StoreM Bool := return (← word r) != 0

def expectInt (r : Ref) : StoreM Int64 := do
  expect r .int
  int r

def expectBool (r : Ref) : StoreM Bool := do
  expect r .bool
  bool r

/-- The bytes of a string. -/
def bytes (r : Ref) : StoreM (List UInt8) := look Obj.bytes? r

def newText (bs : List UInt8) : StoreM Ref := add (.text bs)

/-- Byte `index` of a string. -/
def byteAt (r : Ref) (index : Int) : StoreM UInt8 := do
  let bs ← bytes r
  return bs.getD (← within index bs.length) 0

/-! ### Sequences -/

/-- The items of an array, a frame or an environment. -/
def items (r : Ref) : StoreM (List Ref) := return (← look Obj.items? r).2

/-- Replace item `i` of an array or a frame. -/
def setSlot (r : Ref) (i : Nat) (value : Ref) : StoreM Unit := do
  let (t, xs) ← look Obj.items? r
  if i < xs.length ∧ t ≠ .environment then replace r (.sequence t (xs.set i value)) else wild

/-- Replace the items of an array or a frame from position `i` on. -/
def putItems (r : Ref) (i : Nat) (values : List Ref) : StoreM Unit := do
  let (t, xs) ← look Obj.items? r
  if i + values.length ≤ xs.length ∧ t ≠ .environment then
    replace r (.sequence t (xs.take i ++ values ++ xs.drop (i + values.length)))
  else wild

def newSequence (t : Tag) (xs : List Ref) : StoreM Ref := add (.sequence t xs)

/-- Item `index`; positions outside the sequence are rejected. -/
def getItem (r : Ref) (index : Int) : StoreM Ref := do
  let xs ← items r
  return xs.getD (← within index xs.length) 0

/-- Replace item `index`; positions outside the sequence are rejected. -/
def setItem (r : Ref) (index : Int) (value : Ref) : StoreM Unit := do
  let xs ← items r
  setSlot r (← within index xs.length) value

/-- The environment with one more frame. -/
def extend (env frame : Ref) : StoreM Ref := do
  let frames ← items env
  newSequence .environment (frames ++ [frame])

/-- The frame with the given number. -/
def frame (env : Ref) (index : Nat) : StoreM Ref := getItem env (Scope.signed index)

def lookup (env : Ref) (index slot : Nat) : StoreM Ref := do
  getItem (← frame env index) (Scope.signed slot)

/-- Give a variable another value. -/
def assign (env : Ref) (index slot : Nat) (value : Ref) : StoreM Unit := do
  setItem (← frame env index) (Scope.signed slot) value

/-! ### Slices -/

/-- The array of a slice and the positions that it shows. -/
def sliceOf (r : Ref) : StoreM (Ref × Nat × Nat) := do
  let (array, first, stop) ← look Obj.slice? r
  if first ≤ stop then return (array, first, stop) else wild

/-- The items of the array behind a slice; the nil slice has none. -/
def itemsBehind (array : Ref) : StoreM (List Ref) := if array = unassigned then pure [] else items array

/-- The slice of an array between two positions. -/
def window (array : Ref) (first stop : Nat) : StoreM Ref := do
  let xs ← itemsBehind array
  if first ≤ stop ∧ stop ≤ xs.length then add (.slice array first stop) else wild

def sliceLength (r : Ref) : StoreM Nat := do
  let (_, first, stop) ← sliceOf r
  return stop - first

def sliceCapacity (r : Ref) : StoreM Nat := do
  let (array, first, _) ← sliceOf r
  let xs ← itemsBehind array
  if array = unassigned then return 0
  if first ≤ xs.length then return xs.length - first else wild

/-- All elements of a slice. -/
def elements (r : Ref) : StoreM (List Ref) := do
  let (array, first, stop) ← sliceOf r
  let xs ← itemsBehind array
  if stop ≤ xs.length then return (xs.drop first).take (stop - first) else wild

/-- The array and the position in it of an element. -/
def slicePosition (r : Ref) (index : Int) : StoreM (Ref × Nat) := do
  let (array, first, stop) ← sliceOf r
  let i ← within index (stop - first)
  let xs ← itemsBehind array
  if first + i < xs.length then return (array, first + i) else wild

def sliceGet (r : Ref) (index : Int) : StoreM Ref := do
  let (array, i) ← slicePosition r index
  return (← items array).getD i 0

/-- Replace an element. -/
def sliceSet (r : Ref) (index : Int) (value : Ref) : StoreM Unit := do
  let (array, i) ← slicePosition r index
  setSlot array i value

def checkBounds (low high : Int) (capacity : Nat) : StoreM Unit := do
  if high < 0 ∨ (capacity : Int) < high then reject (.indexOutOfRange high capacity)
  if low < 0 ∨ high < low then reject (.indexOutOfRange low high.toNat)

def ofSlice (r : Ref) (low high : Option Int) : StoreM Ref := do
  let capacity ← sliceCapacity r
  let length ← sliceLength r
  let low := low.getD 0
  let high := high.getD (Scope.signed length)
  checkBounds low high capacity
  let (array, base, _) ← sliceOf r
  window array (base + low.toNat) (base + high.toNat)

def ofArray (array : Ref) (low high : Option Int) : StoreM Ref := do
  let length := (← items array).length
  let low := low.getD 0
  let high := high.getD (Scope.signed length)
  checkBounds low high length
  window array low.toNat high.toNat

/-- The slice with more elements at its end. -/
def append (r : Ref) (values : List Ref) : StoreM Ref := do
  let (old, base, stop) ← sliceOf r
  let length := stop - base
  let capacity ← sliceCapacity r
  let xs ← itemsBehind old
  if stop ≤ xs.length then
    let need := length + values.length
    if need ≤ capacity then
      if values ≠ [] then putItems old stop values
      window old base (base + need)
    else
      let spare := Slice.grownCapacity capacity need - need
      let grown ← newSequence .array ((xs.drop base).take length ++ values ++ List.replicate spare 0)
      window grown 0 need
  else wild

/-! ### Closures, methods and markers -/

def code (r : Ref) : StoreM Code := look Obj.code? r

def newCode (entry arity : Nat) (env : Ref) (declaration : Nat) : StoreM Ref :=
  add (.func ⟨wrap entry, wrap arity, env, wrap declaration⟩)

/-- The receiver and the name of a bound method. -/
def methodOf (r : Ref) : StoreM (Ref × Ref) := look Obj.method? r

def newMethod (receiver : Ref) (name : String) : StoreM Ref := do
  let name ← withRoots [receiver] (newText name.toUTF8.toList)
  add (.method receiver name)

def newMarker (pc : Option Nat) : StoreM Ref := add (.number .callRef (pc.elim ReturnMarker.ending UInt64.ofNat))

/-- Where a return marker leads. -/
def target (r : Ref) : StoreM (Option Nat) := do
  let w ← word r
  return if w = ReturnMarker.ending then none else some w.toNat

/-! ### Contexts -/

def fiber (c : Ref) : StoreM Fiber := look Obj.fiber? c

/-- Change the registers of a context. -/
def update (c : Ref) (g : Fiber → Fiber) : StoreM Unit := do
  replace c (.context (g (← fiber c)))

def newContext (pc : Nat) (env : Ref) (id : Nat) : StoreM Ref :=
  add (.context ⟨wrap pc, [], [], env, false, [], wrap id⟩)

def setPc (c : Ref) (pc : Nat) : StoreM Unit := update c fun f => { f with pc := wrap pc }

def setEnvironment (c env : Ref) : StoreM Unit := update c fun f => { f with environment := env }

def setBlocked (c : Ref) (blocked : Bool) : StoreM Unit := update c fun f => { f with blocked := blocked }

/-- The context must be registered. -/
def expectRegistered (c : Ref) : StoreM Unit := fun s => if c ∈ s.contexts then .ok () s else .error .wild s

def pushOperand (c value : Ref) : StoreM Unit := do
  expectRegistered c
  update c fun f => { f with operands := f.operands ++ [value] }

def pushReturn (c value : Ref) : StoreM Unit := do
  expectRegistered c
  update c fun f => { f with returns := f.returns ++ [value] }

def popOperand (c : Ref) : StoreM Ref := do
  let f ← fiber c
  match f.operands.getLast? with
  | none => reject .stackUnderflow
  | some value =>
    replace c (.context { f with operands := f.operands.dropLast })
    return value

def popReturn (c : Ref) : StoreM Ref := do
  let f ← fiber c
  match f.returns.getLast? with
  | none => reject .stackUnderflow
  | some value =>
    replace c (.context { f with returns := f.returns.dropLast })
    return value

def peekOperand (c : Ref) : StoreM Ref := do
  match (← fiber c).operands.getLast? with
  | none => reject .stackUnderflow
  | some value => return value

def enterEnvironment (c env : Ref) : StoreM Unit := do
  let saved := (← fiber c).environment
  withRoots [env] (pushReturn c saved)
  setEnvironment c env

/-! ### Channels -/

def request (q : Ref) : StoreM Request := look Obj.request? q

def newRequest (r : Request) : StoreM Ref := add (.request { r with resume := wrap r.resume })

def duct (c : Ref) : StoreM Duct := look Obj.duct? c

def newChannel (capacity : Nat) : StoreM Ref := add (.channel ⟨capacity, [], []⟩)

/-- The direction of a request. -/
def Store.direction? (s : Store) (q : Ref) : Option Direction :=
  (s.objects[q]?.bind Obj.request?).map Request.direction

/-- Take the oldest waiting request of a direction. -/
def takeWaiter (c : Ref) (direction : Direction) : StoreM (Option Ref) := do
  let d ← duct c
  let s ← get
  if ∀ q ∈ d.waiters, (s.direction? q).isSome then
    let wanted := fun q => s.direction? q == some direction
    replace c (.channel { d with waiters := d.waiters.eraseP wanted })
    return d.waiters.find? wanted
  else wild

/-- Take a request off the waiting list of its channel. -/
def withdraw (q : Ref) : StoreM Unit := do
  if (← tag q) = .channelRequest then
    let r ← request q
    let d ← duct r.channel
    replace r.channel (.channel { d with waiters := d.waiters.erase q })

/-- Withdraw every request of a context and clear its wait-list. -/
def cancelWaits (c : Ref) : StoreM Unit := do
  (← fiber c).waits.forM withdraw
  update c fun f => { f with waits := [] }

/-- Put a received value where a request wants it. -/
def deliver (q c value : Ref) : StoreM Unit := do
  let r ← request q
  if r.frame = unassigned then
    pushOperand c value
  else
    setItem r.frame 0 value
    enterEnvironment c (← request q).environment

/-- Let the context behind a request go on. Answers the context. -/
def complete (q : Ref) (value : Option Ref) : StoreM Ref :=
  withRoots [q, value.getD unassigned] do
    let r ← request q
    expectRegistered r.context
    if let some value := value then deliver q r.context value
    setPc r.context (← request q).resume
    cancelWaits r.context
    setBlocked r.context false
    return r.context

/-- Add a value to the buffer unless it is full. -/
def tryPush (c value : Ref) : StoreM Bool := do
  let d ← duct c
  if d.buffer.length = d.capacity then return false
  replace c (.channel { d with buffer := d.buffer ++ [value] })
  return true

/-- Take the oldest buffered value. -/
def popBuffer (c : Ref) : StoreM (Option Ref) := do
  let d ← duct c
  match d.buffer with
  | [] => return none
  | value :: rest =>
    replace c (.channel { d with buffer := rest })
    return some value

/-- Send a value if a receiver waits or the buffer has room. -/
def trySend (c value : Ref) : StoreM (SendOutcome × List Event) := do
  match ← takeWaiter c .recv with
  | some q =>
    let woken ← complete q (some value)
    return (.delivered woken, [.completed c .recv q, .sent c value, .received c value])
  | none =>
    if ← tryPush c value then return (.buffered, [.sent c value])
    return (.wouldBlock, [])

/-- Receive the oldest buffered value, or the value of a waiting sender. -/
def tryRecv (c : Ref) : StoreM (RecvOutcome × List Event) := do
  match ← popBuffer c with
  | some value =>
    match ← takeWaiter c .send with
    | none => return (.received value none, [.received c value])
    | some q =>
      let promoted := (← request q).value
      let _ ← tryPush c promoted
      let woken ← withRoots [value] (complete q none)
      return (.received value (some woken), [.received c value, .completed c .send q, .sent c promoted])
  | none =>
    match ← takeWaiter c .send with
    | none => return (.wouldBlock, [])
    | some q =>
      let value := (← request q).value
      let woken ← withRoots [value] (complete q none)
      return (.received value (some woken), [.completed c .send q, .sent c value, .received c value])

/-- Whether a request of another context waits in the other direction. -/
def opposes (c : Ref) (direction : Direction) : List Ref → StoreM Bool
  | [] => pure false
  | q :: rest => do
    let r ← request q
    if r.direction ≠ direction ∧ r.context ≠ c then return true
    opposes c direction rest

/-- Let a request wait on its channel and enter it in its context's wait-list. -/
def park (q : Ref) : StoreM (Unit × List Event) := do
  let r ← request q
  let d ← duct r.channel
  if ← opposes r.context r.direction d.waiters then reject (.mixedWaiters 0)
  expectRegistered r.context
  replace r.channel (.channel { d with waiters := d.waiters ++ [q] })
  withRoots [q] (update r.context fun f => { f with waits := f.waits ++ [q] })
  return ((), [.parked r.channel r.direction q])

/-! ### Wait groups -/

/-- The counter and the waiting contexts of a wait group. -/
def group (g : Ref) : StoreM (Word × List Ref) := look Obj.group? g

def newGroup : StoreM Ref := add (.waitGroup 0 [])

/-- Release up to `n` waiting contexts. -/
def releaseFrom (g : Ref) : Nat → StoreM (List Ref)
  | 0 => pure []
  | n + 1 => do
    match ← group g with
    | (_, []) => return []
    | (counter, c :: rest) =>
      replace g (.waitGroup counter rest)
      cancelWaits c
      setBlocked c false
      return c :: (← releaseFrom g n)

/-- Change the counter. Answers the contexts that are released because it is now zero. -/
def addToGroup (g : Ref) (delta : Int64) : StoreM (List Ref) := do
  let (counter, waiters) ← group g
  let next := counter.toInt64.toInt + delta.toInt
  if next < 0 then reject .negativeCounter
  if Int64.maxValue.toInt < next then fault
  replace g (.waitGroup (UInt64.ofNat next.toNat) waiters)
  if next = 0 then releaseFrom g waiters.length else return []

/-- Let a context wait unless the counter is zero. Answers whether it waits. -/
def waitFor (g c : Ref) : StoreM Bool := do
  let (counter, waiters) ← group g
  if counter.toInt64 = 0 then return false
  expectRegistered c
  withRoots [g, c] do
    replace g (.waitGroup counter (waiters ++ [c]))
    update c fun f => { f with waits := f.waits ++ [g] }
  setBlocked c true
  return true

/-! ### Copying and displaying -/

/-- A box of its own with the same content. -/
def duplicate (r : Ref) : StoreM Ref := do
  let t ← tag r
  let v ← word r
  add (.number t v)

/-- Store the results of `f` on the given values in the slots of `r` from `i` on, each before the next is made. -/
def fillSlots (f : Ref → StoreM Ref) (r : Ref) (i : Nat) : List Ref → StoreM Unit
  | [] => pure ()
  | v :: rest => do
    let x ← f v
    setSlot r i x
    fillSlots f r (i + 1) rest

/-- Copy a value that is an element of the arrays in `path`, which must not contain it. -/
def copyWithin : Nat → List Ref → Ref → StoreM Ref
  | 0, _, _ => wild
  | n + 1, path, r => do
    match ← tag r with
    | .int | .float | .bool => duplicate r
    | .array =>
      if r ∈ path then wild
      let xs ← items r
      let out ← withRoots [r] (newSequence .array (List.replicate xs.length 0))
      withRoots [r, out] (fillSlots (copyWithin n (r :: path)) out 0 xs)
      return out
    | _ => return r

/-- Copy a value for assignment. -/
def copy (r : Ref) : StoreM Ref := fun s => copyWithin (s.objects.length + 1) [] r s

/-- Values between square brackets, if all of them are known. -/
def bracketed (parts : List (Option String)) : Option String := (parts.mapM id).map Value.bracketed

/-- What is displayed of a value nested less than `n` deep, unless an address is displayed. -/
def displayWithin : Nat → Ref → StoreM (Option String)
  | 0, _ => fault
  | n + 1, r => do
    match ← tag r with
    | .unassigned => return some "<nil>"
    | .int => return some (toString (← int r).toInt)
    | .float => return some (Value.floatFormat.write (← float r))
    | .bool => return some (toString (← bool r))
    | .string => return some (Utf8.decodeLossy (← bytes r))
    | .array => return bracketed (← (← items r).mapM (displayWithin n))
    | .slice => return bracketed (← (← elements r).mapM (displayWithin n))
    | .func => return some s!"func@{(← code r).entry}"
    | .method => return some ("method " ++ Utf8.decodeLossy (← bytes (← methodOf r).2))
    | .waitGroup => return some ("\x7b" ++ toString (← group r).1.toInt64.toInt ++ "\x7d")
    | _ => return none

end FiberMachine.Ideal
