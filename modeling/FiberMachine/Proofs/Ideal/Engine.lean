import FiberMachine.Machine.Dispatch
import FiberMachine.Proofs.Ideal.Logic

/-!
# The ideal machine

Every instruction does to the store what the machine's instruction does to the heap, one action for each
action there, and notes what happens on channels. What only a debugger sees is left out: the journal, the blocks written last and the origins of
frames. A context that becomes ready must be registered.
-/

namespace FiberMachine.Ideal

/-- The state shared by all contexts. -/
structure Engine where
  store : Store
  scheduler : Scheduler
  /-- What has been printed, unless an address was part of it. -/
  output : Option String
  generator : Generator
  nextId : Nat

abbrev EngineM := EStateM Lapse Engine

namespace Engine

variable {α : Type}

/-- Run an action on the store. -/
@[inline] def onStore (action : StoreM α) : EngineM α := fun e =>
  match action e.store with
  | .ok a s => .ok a { e with store := s }
  | .error l s => .error l { e with store := s }

instance : MonadLift StoreM EngineM where
  monadLift := onStore

theorem run_store (n : StoreM α) (e : Engine) : (liftM n : EngineM α) e = match n e.store with
    | .ok a s => .ok a { e with store := s }
    | .error l s => .error l { e with store := s } := rfl

/-- An action on the store of the engine. -/
theorem safe_store {A : Lapse → Prop} {n : StoreM α} {e : Engine} {Q : α → Engine → Prop}
    (f : Safe A n e.store fun a s => Q a { e with store := s }) : Safe A (liftM n : EngineM α) e Q := by
  unfold Safe at f ⊢
  rw [run_store]
  split at f
  next eq => simpa only [eq] using f
  next eq => simpa only [eq] using f

/-- An action on the store comes first. -/
theorem store_bind {A : Lapse → Prop} {β : Type} {n : StoreM α} {e : Engine} {k : α → EngineM β} {R : α → Store → Prop} {Q : β → Engine → Prop}
    (f : Safe A n e.store R) (next : ∀ a s', R a s' → Safe A (k a) { e with store := s' } Q) : Safe A (liftM n >>= k) e Q :=
  Safe.bind (Q := fun a e' => ∃ s', e' = { e with store := s' } ∧ R a s') (safe_store (f.weaken fun _ s' r => ⟨s', rfl, r⟩))
    fun a _ ⟨s', same, r⟩ => same ▸ next a s' r

/-- Abort the program. -/
def abort (cause : MachineError) : EngineM α := throw (.error cause)

/-- Abort because of an object of the wrong kind. -/
def unexpected (expected found : Tag) : EngineM α := abort (.heap (.unexpectedTag 0 expected found))

/-! ### Operands -/

def pop (c : Ref) : EngineM Ref := do
  let value ← popOperand c
  pushRoot value
  return value

def popOnto (c : Ref) (above : List Ref) : Nat → EngineM (List Ref)
  | 0 => pure above
  | n + 1 => do
    let value ← pop c
    popOnto c (value :: above) n

def popMany (c : Ref) (n : Nat) : EngineM (List Ref) := do
  expectListable n
  popOnto c [] n

def popInt (c : Ref) : EngineM Int64 := do
  let value ← pop c
  expectInt value

def popBool (c : Ref) : EngineM Bool := do
  let value ← pop c
  expectBool value

def push (c value : Ref) : EngineM Unit := pushOperand c value

def protecting (make : StoreM Ref) : EngineM Ref := do
  let r ← make
  pushRoot r
  return r

def copies : List Ref → EngineM (List Ref)
  | [] => pure []
  | v :: rest => do
    let copy ← protecting (copy v)
    return copy :: (← copies rest)

def load (c : Ref) (make : StoreM Ref) : EngineM Unit := do
  let r ← make
  push c r

/-! ### Contexts -/

/-- A context that is to become ready must be registered. -/
def expectWoken : Option Ref → StoreM Unit
  | none => pure ()
  | some c => expectRegistered c

/-- Put a context at the back of the ready queue. -/
def enqueue (c : Ref) : EngineM Unit := do
  expectRegistered c
  modify fun e => { e with scheduler := e.scheduler.enqueue c }

def freshId : EngineM Nat := modifyGet fun e => (e.nextId, { e with nextId := e.nextId + 1 })

/-! ### Variables and scopes -/

def zeroValue : ValueKind → StoreM Ref
  | .int => newInt 0
  | .float => newFloat .zero
  | .bool => newBool false
  | .string => newText []
  | .slice => window unassigned 0 0
  | .chan | .func => pure unassigned
  | .waitGroup => newGroup

/-- A frame of unassigned variables. -/
def newFrame (n : Nat) : StoreM Ref := newSequence .frame (List.replicate n 0)

def execLoadVar (c : Ref) (frame slot : Nat) : EngineM Unit := do
  let f ← fiber c
  push c (← lookup f.environment frame slot)

def execStoreVar (c : Ref) (frame slot : Nat) : EngineM Unit := do
  let value ← pop c
  let copy ← copy value
  let f ← fiber c
  assign f.environment frame slot copy

def execEnterScope (c : Ref) (slots : Nat) : EngineM Unit := do
  let frame ← protecting (newFrame slots)
  let f ← fiber c
  let scope ← extend f.environment frame
  enterEnvironment c scope

def execExitScope (c : Ref) : EngineM Unit := do
  let saved ← popReturn c
  expect saved .environment
  setEnvironment c saved

/-! ### Operators -/

def box : Machine.Primitive → StoreM Ref
  | .int v => newInt v
  | .float v => newFloat v
  | .bool v => newBool v

def sameReference? (left right : Ref) : StoreM (Option Bool) := do
  match ← tag left, ← tag right with
  | .slice, .unassigned => return some ((← sliceOf left).1 = unassigned)
  | .unassigned, .slice => return some ((← sliceOf right).1 = unassigned)
  | .unassigned, _ | _, .unassigned => return some (left = right)
  | l, r => return if l = r && !l.isPrimitive then some (left = right) else none

def onReferences (op : BinaryOp) (left right : Ref) : EngineM Machine.Primitive := do
  let lt ← tag left
  let rt ← tag right
  match op with
  | .eq | .ne =>
    match ← sameReference? left right with
    | some same => return .bool (if op = .eq then same else !same)
    | none => abort (Machine.notDefined op lt rt)
  | _ => abort (Machine.notDefined op lt rt)

def ofExcept : Except MachineError α → EngineM α
  | .ok a => pure a
  | .error cause => abort cause

def applyBinary (op : BinaryOp) (left right : Ref) : EngineM Ref := do
  match ← tag left, ← tag right with
  | .int, .int => box (← ofExcept (Machine.onInts op (← int left) (← int right)))
  | .float, .float => box (← ofExcept (Machine.onFloats op (← float left) (← float right)))
  | .bool, .bool => box (← ofExcept (Machine.onBools op (← bool left) (← bool right)))
  | .string, .string =>
    if op = .add then
      newText ((← bytes left) ++ (← bytes right))
    else
      let order := compare (← bytes left) (← bytes right)
      box (← ofExcept (Machine.comparison op order .string .string))
  | _, _ => box (← onReferences op left right)

def execBinary (c : Ref) (op : BinaryOp) : EngineM Unit := do
  let right ← pop c
  let left ← pop c
  push c (← applyBinary op left right)

def applyUnary (op : UnaryOp) (operand : Ref) : EngineM Ref := do
  match op, ← tag operand with
  | .neg, .int => newInt (-(← int operand))
  | .neg, .float => newFloat (← float operand).neg
  | .bitNot, .int => newInt (~~~(← int operand))
  | .not, .bool => newBool (!(← bool operand))
  | _, t => abort (.invalidOperands op.symbol [t])

def execUnary (c : Ref) (op : UnaryOp) : EngineM Unit := do
  let operand ← pop c
  push c (← applyUnary op operand)

/-! ### Calls and methods -/

def execLoadFunc (c : Ref) (pc entry arity : Nat) : EngineM Unit := do
  let f ← fiber c
  let closure ← newCode entry arity f.environment pc
  push c closure

def bindParameters (frame : Ref) (i : Nat) : List Ref → EngineM Unit
  | [] => pure ()
  | argument :: rest => do
    let copy ← copy argument
    setItem frame (Scope.signed i) copy
    bindParameters frame (i + 1) rest

def bindArguments (closure : Ref) (arguments : List Ref) : EngineM Ref := do
  let arity := (← code closure).arity
  if arity ≠ arguments.length then abort (.arityMismatch arity arguments.length)
  let frame ← protecting (newFrame arity)
  bindParameters frame 0 arguments
  let captured := (← code closure).environment
  let env ← protecting (extend captured frame)
  let _ ← code closure
  return env

def expectArguments (arguments : List Ref) (n : Nat) : EngineM Unit := do
  if arguments.length ≠ n then abort (.arityMismatch n arguments.length)

def wakeAll (released : List Ref) : EngineM Outcome := do
  released.forM enqueue
  return .proceed

def callMethod (c receiver : Ref) (method : String) (arguments : List Ref) : EngineM Outcome := do
  match ← tag receiver, method with
  | .waitGroup, "Add" =>
    expectArguments arguments 1
    let delta ← expectInt (arguments.headD unassigned)
    wakeAll (← addToGroup receiver delta)
  | .waitGroup, "Done" =>
    expectArguments arguments 0
    wakeAll (← addToGroup receiver (-1))
  | .waitGroup, "Wait" =>
    expectArguments arguments 0
    if ← waitFor receiver c then return .block else return .proceed
  | t, _ => abort (.unknownMethod t method)

def execCall (c : Ref) (returnPc argc : Nat) : EngineM Outcome := do
  let arguments ← popMany c argc
  let callee ← pop c
  if (← tag callee) = .method then
    let receiver := (← methodOf callee).1
    let name := Utf8.decodeLossy (← bytes (← methodOf callee).2)
    callMethod c receiver name arguments
  else
    expect callee .func
    let env ← bindArguments callee arguments
    let marker ← newMarker (some returnPc)
    pushReturn c marker
    enterEnvironment c env
    setPc c (← code callee).entry
    return .proceed

def unwind (c : Ref) : Nat → EngineM Outcome
  | 0 => abort .returnsExhausted
  | n + 1 => do
    if (← fiber c).returns.isEmpty then abort .returnsExhausted
    let entry ← popReturn c
    match ← tag entry with
    | .environment =>
      setEnvironment c entry
      unwind c n
    | .callRef =>
      match ← target entry with
      | some pc =>
        setPc c pc
        return .proceed
      | none => return .finish
    | found => unexpected .callRef found

def execReturn (c : Ref) : EngineM Outcome := do
  let f ← fiber c
  unwind c (f.returns.length + 1)

def execLoadMethod (c : Ref) (method : String) : EngineM Unit := do
  let receiver ← pop c
  let bound ← newMethod receiver method
  push c bound

def execCallMethod (c : Ref) (method : String) (argc : Nat) : EngineM Outcome := do
  let arguments ← popMany c argc
  let receiver ← pop c
  callMethod c receiver method arguments

def execGo (c : Ref) (argc : Nat) : EngineM Unit := do
  let arguments ← popMany c argc
  let closure ← pop c
  expect closure .func
  let env ← bindArguments closure arguments
  let id ← freshId
  let entry := (← code closure).entry
  let child ← newContext entry env id
  registerContext child
  let marker ← newMarker none
  pushReturn child marker
  enqueue child

/-- Print the values, displayed to the given depth. -/
def execPrint (depth : Nat) (c : Ref) (argc : Nat) (newline : Bool) : EngineM Unit := do
  let values ← popMany c argc
  let parts ← values.mapM fun v => (displayWithin depth v : EngineM (Option String))
  let text := (parts.mapM id).map fun parts =>
    if newline then " ".intercalate parts ++ "\n" else String.join parts
  modify fun e => { e with output := e.output.bind fun before => text.map fun text => before ++ text }

/-! ### Collections -/

def execMakeArray (c : Ref) (n : Nat) : EngineM Unit := do
  let elements ← popMany c n
  let elements ← copies elements
  load c (newSequence .array elements)

/-- Fill `n` positions from `i` on with zero values. -/
def fillZero (array : Ref) (elem : ValueKind) (i : Nat) : Nat → EngineM Unit
  | 0 => pure ()
  | n + 1 => do
    let value ← zeroValue elem
    setSlot array i value
    fillZero array elem (i + 1) n

def execMakeSlice (c : Ref) (elem : ValueKind) (hasCap : Bool) : EngineM Unit := do
  let capacity? ← if hasCap then some <$> popInt c else pure none
  let length ← popInt c
  if length < 0 then abort (.invalidLength .sliceLength length.toInt)
  let capacity := capacity?.getD length
  if capacity < length then abort (.invalidLength .sliceCapacity capacity.toInt)
  let size := capacity.toInt.toNat
  let array ← protecting (newSequence .array (List.replicate size 0))
  fillZero array elem 0 size
  load c (window array 0 length.toInt.toNat)

def execIndex (c : Ref) : EngineM Unit := do
  let index := (← popInt c).toInt
  let container ← pop c
  match ← tag container with
  | .array => push c (← getItem container index)
  | .slice => push c (← sliceGet container index)
  | .string =>
    let byte ← byteAt container index
    load c (newInt (Int64.ofNat byte.toNat))
  | found => unexpected .slice found

def storeAt (container : Ref) (index : Int) (value : Ref) : EngineM Unit := do
  match ← tag container with
  | .array => setItem container index value
  | .slice =>
    sliceSet container index value
    let _ ← sliceOf container
  | found => unexpected .slice found

def execStoreIndex (c : Ref) : EngineM Unit := do
  let value ← pop c
  let index := (← popInt c).toInt
  let container ← pop c
  let copy ← copy value
  storeAt container index copy

def execLen (c : Ref) : EngineM Unit := do
  let container ← pop c
  let n ← match ← tag container with
    | .array => do pure (← items container).length
    | .slice => sliceLength container
    | .string => do pure (← bytes container).length
    | .channel => do pure (← duct container).buffer.length
    | .unassigned => pure 0
    | found => unexpected .slice found
  load c (newInt (Int64.ofNat n))

def execCap (c : Ref) : EngineM Unit := do
  let container ← pop c
  let n ← match ← tag container with
    | .array => do pure (← items container).length
    | .slice => sliceCapacity container
    | .channel => do pure (← duct container).capacity
    | .unassigned => pure 0
    | found => unexpected .slice found
  load c (newInt (Int64.ofNat n))

def substring (container : Ref) (low high : Option Int) : StoreM Ref := do
  let bytes ← bytes container
  let low := low.getD 0
  let high := high.getD bytes.length
  checkBounds low high bytes.length
  newText ((bytes.take high.toNat).drop low.toNat)

def execSlice (c : Ref) (hasLow hasHigh : Bool) : EngineM Unit := do
  let high ← if hasHigh then some <$> popInt c else pure none
  let low ← if hasLow then some <$> popInt c else pure none
  let low := low.map Int64.toInt
  let high := high.map Int64.toInt
  let container ← pop c
  match ← tag container with
  | .array => load c (ofArray container low high)
  | .slice => load c (ofSlice container low high)
  | .string => load c (substring container low high)
  | found => unexpected .slice found

def execAppend (c : Ref) (argc : Nat) : EngineM Unit := do
  let values ← popMany c argc
  let target ← pop c
  let values ← copies values
  let target ← match ← tag target with
    | .unassigned => protecting (window unassigned 0 0)
    | .slice => pure target
    | found => unexpected .slice found
  load c (append target values)

/-! ### Communication -/

def execMakeChan (c : Ref) (buffered : Bool) : EngineM (Unit × List Event) := do
  let capacity ← if buffered then popInt c else pure 0
  if capacity < 0 then abort (.invalidLength .channelCapacity capacity.toInt)
  let channel ← newChannel capacity.toInt.toNat
  push c channel
  return ((), [.made channel])

def expectChannel (r : Ref) : StoreM Bool := do
  if r = unassigned then return false
  expect r .channel
  return true

def blockForever (c : Ref) : EngineM (Outcome × List Event) := do
  setBlocked c true
  return (.block, [.stranded c])

def parkRequest (r : Request) : EngineM (Outcome × List Event) := do
  let request ← newRequest r
  let ((), events) ← park request
  setBlocked r.context true
  return (.block, events)

def wakeOption : Option Ref → EngineM Outcome
  | none => pure .proceed
  | some c => do
    enqueue c
    return .proceed

def execSend (c : Ref) (resume : Nat) : EngineM (Outcome × List Event) := do
  let value ← pop c
  let channel ← pop c
  if ← expectChannel channel then
    let copy ← protecting (copy value)
    match ← trySend channel copy with
    | (.delivered woken, events) => return (← wakeOption (some woken), events)
    | (.buffered, events) => return (.proceed, events)
    | (.wouldBlock, _) => parkRequest (Machine.sendRequest c channel copy resume)
  else
    blockForever c

def execRecv (c : Ref) (resume : Nat) : EngineM (Outcome × List Event) := do
  let channel ← pop c
  if ← expectChannel channel then
    match ← tryRecv channel with
    | (.received value woken, events) =>
      expectWoken woken
      push c value
      return (← wakeOption woken, events)
    | (.wouldBlock, _) => parkRequest (Machine.recvRequest c channel resume unassigned unassigned)
  else
    blockForever c

def execSelectSend (c : Ref) (target : Nat) : EngineM Unit := do
  let value ← pop c
  let channel ← pop c
  let _ ← expectChannel channel
  let copy ← protecting (copy value)
  let request ← newRequest (Machine.sendRequest c channel copy target)
  push c request

def execSelectRecv (c : Ref) (target : Nat) : EngineM Unit := do
  let channel ← pop c
  let _ ← expectChannel channel
  let frame ← protecting (newFrame 1)
  let f ← fiber c
  let scope ← protecting (extend f.environment frame)
  let request ← newRequest (Machine.recvRequest c channel target frame scope)
  push c request

def tryCase (q : Ref) : StoreM (Option (Option Ref) × List Event) := do
  let channel := (← request q).channel
  if channel = unassigned then return (none, [])
  match (← request q).direction with
  | .send =>
    let value := (← request q).value
    match ← trySend channel value with
    | (.delivered woken, events) =>
      expectWoken (some woken)
      let _ ← complete q none
      return (some (some woken), events)
    | (.buffered, events) =>
      let _ ← complete q none
      return (some none, events)
    | (.wouldBlock, _) => return (none, [])
  | .recv =>
    match ← tryRecv channel with
    | (.received value woken, events) =>
      expectWoken woken
      let _ ← complete q (some value)
      return (some woken, events)
    | (.wouldBlock, _) => return (none, [])

def takeReady : List Ref → StoreM (Option (Option Ref) × List Event)
  | [] => pure (none, [])
  | q :: rest => do
    match ← tryCase q with
    | (some woken, events) => return (some woken, events)
    | (none, _) => takeReady rest

def parkAll : List Ref → StoreM (Unit × List Event)
  | [] => pure ((), [])
  | q :: rest => do
    let ((), first) ← if (← request q).channel ≠ unassigned then park q else pure ((), [])
    let ((), others) ← parkAll rest
    return ((), first ++ others)

def selectAmong (c : Ref) (requests : List Ref) (default? : Option Nat) : EngineM (Outcome × List Event) := do
  match ← takeReady requests with
  | (some woken, events) => return (← wakeOption woken, events)
  | (none, _) =>
    match default? with
    | some target =>
      setPc c target
      return (.proceed, [])
    | none =>
      let ((), events) ← parkAll requests
      setBlocked c true
      return (.block, Event.blocking c events)

def shuffled (requests : List Ref) : EngineM (List Ref) :=
  modifyGet fun e =>
    let (requests, generator) := e.generator.shuffle requests
    (requests, { e with generator := generator })

def execSelect (c : Ref) (cases : Nat) (default? : Option Nat) : EngineM (Outcome × List Event) := do
  let requests ← popMany c cases
  requests.forM fun r => (expect r .channelRequest : EngineM Unit)
  selectAmong c (← shuffled requests) default?

/-! ### Instructions -/

/-- An instruction that has nothing to do with channels. -/
def quietly (action : EngineM Outcome) : EngineM (Outcome × List Event) := do
  let outcome ← action
  return (outcome, [])

def proceeding (action : EngineM Unit) : EngineM (Outcome × List Event) :=
  quietly do
    action
    return .proceed

/-- The effect of an instruction fetched from `pc`. -/
def dispatch (depth : Nat) (c : Ref) (pc : Nat) : Instruction → EngineM (Outcome × List Event)
  | .nop => quietly (pure .proceed)
  | .loadInt v => proceeding (load c (newInt v))
  | .loadFloat v => proceeding (load c (newFloat v))
  | .loadBool v => proceeding (load c (newBool v))
  | .loadString s => proceeding (load c (newText s.toUTF8.toList))
  | .loadDefault kind => proceeding (load c (zeroValue kind))
  | .loadUnassigned => proceeding (push c unassigned)
  | .pop => proceeding do
    let _ ← pop c
  | .dup => proceeding do
    let top ← peekOperand c
    push c top
  | .loadVar frame slot => proceeding (execLoadVar c frame slot)
  | .storeVar frame slot => proceeding (execStoreVar c frame slot)
  | .binary op => proceeding (execBinary c op)
  | .unary op => proceeding (execUnary c op)
  | .jump target => proceeding (setPc c target)
  | .jumpIfFalse target => proceeding do
    if !(← popBool c) then setPc c target
  | .jumpIfTrue target => proceeding do
    if ← popBool c then setPc c target
  | .enterScope names => proceeding (execEnterScope c names.length)
  | .exitScope => proceeding (execExitScope c)
  | .loadFunc entry params => proceeding (execLoadFunc c pc entry params.length)
  | .call argc => quietly (execCall c (pc + 1) argc)
  | .ret => quietly (execReturn c)
  | .loadMethod method => proceeding (execLoadMethod c method)
  | .callMethod method argc => quietly (execCallMethod c method argc)
  | .makeArray n => proceeding (execMakeArray c n)
  | .makeSlice elem hasCap => proceeding (execMakeSlice c elem hasCap)
  | .index => proceeding (execIndex c)
  | .storeIndex => proceeding (execStoreIndex c)
  | .len => proceeding (execLen c)
  | .cap => proceeding (execCap c)
  | .slice low high => proceeding (execSlice c low high)
  | .append argc => proceeding (execAppend c argc)
  | .makeChan buffered => do
    let ((), events) ← execMakeChan c buffered
    return (.proceed, events)
  | .send => execSend c (pc + 1)
  | .recv => execRecv c (pc + 1)
  | .selectSend target => proceeding (execSelectSend c target)
  | .selectRecv target _ => proceeding (execSelectRecv c target)
  | .select cases default? => execSelect c cases default?
  | .go argc => proceeding (execGo c argc)
  | .print argc newline => proceeding (execPrint depth c argc newline)
  | .done => quietly (pure .finish)

/-- The engine with only the `mark` oldest protected objects. -/
def releaseRoots (e : Engine) (mark : Nat) : Engine :=
  { e with store := { e.store with temporaries := e.store.temporaries.take mark } }

/-- Execute an instruction fetched from `pc`. -/
def execute (depth : Nat) (c : Ref) (pc : Nat) (i : Instruction) : EngineM (Outcome × List Event) := fun e =>
  let mark := e.store.temporaries.length
  match dispatch depth c pc i e with
  | .ok result e => .ok result (e.releaseRoots mark)
  | .error l e => .error l (e.releaseRoots mark)

/-- Roots that are released at the end do not matter for how an instruction may fail. -/
theorem execute_safe {A : Lapse → Prop} {depth pc : Nat} {c : Ref} {i : Instruction} {e : Engine} {Q : Outcome × List Event → Engine → Prop}
    (f : Safe A (dispatch depth c pc i) e fun p e' => Q p (e'.releaseRoots e.store.temporaries.length)) :
    Safe A (execute depth c pc i) e Q := by
  unfold Safe at f ⊢
  unfold execute
  dsimp only
  split at f
  next eq => rwa [eq]
  next eq => rwa [eq]

end Engine

end FiberMachine.Ideal
