import FiberMachine.Execution.Basic

/-!
# What happens on channels

The actions on channels are told apart by what they note: that a send or a receive has completed, that a
request waits from now on, that a waiting one has been completed. Each noting action does what the machine does
and answers its notes besides, so the notes of a step are determined by the state in which the step begins.
-/

namespace FiberMachine

open Heap

/-- Something that happens on a channel, or to a context that nothing can wake. -/
inductive Event where
  | made (channel : Addr)
  | sent (channel value : Addr)
  | received (channel value : Addr)
  | parked (channel : Addr) (direction : Direction) (request : Addr)
  | completed (channel : Addr) (direction : Direction) (request : Addr)
  /-- The context blocks on nil channels only, or on no channel at all. -/
  | stranded (context : Addr)
  deriving DecidableEq

/-- The channel that something has happened on. -/
def Event.channel? : Event → Option Addr
  | .sent c _ | .received c _ | .parked c _ _ | .completed c _ _ => some c
  | .made _ | .stranded _ => none

/-- What is noted when a context blocks that has parked as noted. -/
def Event.blocking (context : Addr) (parked : List Event) : List Event :=
  if parked = [] then [.stranded context] else parked

/-! What has happened on the channel `d`, the oldest first. -/

/-- The values whose sends have completed. -/
def Event.sends (d : Addr) (events : List Event) : List Addr :=
  events.filterMap fun
    | .sent c v => if c = d then some v else none
    | _ => none

/-- The values that have been received. -/
def Event.receives (d : Addr) (events : List Event) : List Addr :=
  events.filterMap fun
    | .received c v => if c = d then some v else none
    | _ => none

/-- The requests of a direction that have begun to wait. -/
def Event.parks (d : Addr) (t : Direction) (events : List Event) : List Addr :=
  events.filterMap fun
    | .parked c t' q => if c = d ∧ t' = t then some q else none
    | _ => none

/-- The waiting requests of a direction that have been completed. -/
def Event.completions (d : Addr) (t : Direction) (events : List Event) : List Addr :=
  events.filterMap fun
    | .completed c t' q => if c = d ∧ t' = t then some q else none
    | _ => none

section

variable {ε σ α β : Type}

/-- The action without its notes. -/
def silently (noting : EStateM ε σ (α × List Event)) : EStateM ε σ α := Prod.fst <$> noting

theorem silently_pure (a : α) (events : List Event) : silently (pure (a, events) : EStateM ε σ (α × List Event)) = pure a := rfl

/-- The first action notes nothing. -/
theorem silently_bind {m : EStateM ε σ β} {k : β → EStateM ε σ (α × List Event)} {l : β → EStateM ε σ α}
    (next : ∀ b, silently (k b) = l b) : silently (m >>= k) = m >>= l := by
  rw [silently, map_bind]
  exact congrArg _ (funext next)

/-- What the first action notes does not matter for the second. -/
theorem silently_noting {m : EStateM ε σ (β × List Event)} {p : EStateM ε σ β} {k : β × List Event → EStateM ε σ (α × List Event)}
    {l : β → EStateM ε σ α} (first : silently m = p) (next : ∀ b events, silently (k (b, events)) = l b) :
    silently (m >>= k) = p >>= l := by
  rw [silently, map_bind, ← first, silently, bind_map_left]
  exact congrArg _ (funext fun q => next q.1 q.2)

theorem silently_run (m : EStateM ε σ (α × List Event)) (c : σ) : silently m c = match m c with
    | .ok p c' => .ok p.1 c'
    | .error e c' => .error e c' := by
  change EStateM.map _ _ _ = _
  unfold EStateM.map
  cases m c <;> rfl

/-- The answer of an action is not changed by notes. -/
theorem silently_answer (m : EStateM ε σ α) (events : List Event) : silently (do return (← m, events)) = m := by
  rw [silently_bind fun a => silently_pure a events, bind_pure]

end

/-! ### Channels -/

namespace Channel

def trySendNoting (addr value : Addr) : HeapM (SendOutcome × List Event) := do
  match ← takeWaiter addr .recv with
  | some request =>
    let woken ← complete request (some value)
    return (.delivered woken, [.completed addr .recv request, .sent addr value, .received addr value])
  | none =>
    if ← Queue.tryPush (← buffer addr) value then return (.buffered, [.sent addr value])
    return (.wouldBlock, [])

def tryRecvNoting (addr : Addr) : HeapM (RecvOutcome × List Event) := do
  let buffer ← buffer addr
  match ← Queue.pop buffer with
  | some value =>
    match ← takeWaiter addr .send with
    | none => return (.received value none, [.received addr value])
    | some request =>
      let promoted ← Request.valueOf request
      let _ ← Queue.tryPush buffer promoted
      let woken ← withRoots [value] (complete request none)
      return (.received value (some woken),
        [.received addr value, .completed addr .send request, .sent addr promoted])
  | none =>
    match ← takeWaiter addr .send with
    | none => return (.wouldBlock, [])
    | some request =>
      let value ← Request.valueOf request
      let woken ← withRoots [value] (complete request none)
      return (.received value (some woken),
        [.completed addr .send request, .sent addr value, .received addr value])

def parkNoting (request : Addr) : HeapM (Unit × List Event) := do
  let channel ← Request.channelOf request
  let context ← Request.contextOf request
  let direction ← Request.directionOf request
  let waiters ← waiters channel
  if ← opposes context direction (← LinkedList.values waiters) then reject (.mixedWaiters channel)
  LinkedList.pushBack waiters request
  let waits ← Context.waitList context
  withRoots [request] (LinkedList.pushBack waits request)
  return ((), [.parked channel direction request])

theorem silently_trySend (addr value : Addr) : silently (trySendNoting addr value) = trySend addr value :=
  silently_bind fun found => by
    cases found with
    | some request => exact silently_bind fun woken => rfl
    | none => exact silently_bind fun buffer => silently_bind fun added => by cases added <;> rfl

theorem silently_tryRecv (addr : Addr) : silently (tryRecvNoting addr) = tryRecv addr :=
  silently_bind fun buffer => silently_bind fun popped => by
    cases popped with
    | some value =>
      refine silently_bind fun found => ?_
      cases found with
      | none => rfl
      | some request => exact silently_bind fun promoted => silently_bind fun _ => silently_bind fun woken => rfl
    | none =>
      refine silently_bind fun found => ?_
      cases found with
      | none => rfl
      | some request => exact silently_bind fun value => silently_bind fun woken => rfl

theorem silently_park (request : Addr) : silently (parkNoting request) = park request := by
  refine silently_bind fun channel => silently_bind fun context => silently_bind fun direction => silently_bind fun waiters => ?_
  refine silently_bind fun values => silently_bind fun opposed => ?_
  have rest : silently (do
      LinkedList.pushBack waiters request
      let waits ← Context.waitList context
      withRoots [request] (LinkedList.pushBack waits request)
      return ((), [.parked channel direction request]) : HeapM (Unit × List Event)) = (do
      LinkedList.pushBack waiters request
      let waits ← Context.waitList context
      withRoots [request] (LinkedList.pushBack waits request)) :=
    silently_bind fun _ => silently_bind fun waits => silently_answer _ _
  split
  · exact silently_bind fun _ => rest
  · exact rest

end Channel

/-! ### Instructions -/

namespace Machine

def execMakeChanNoting (context : Addr) (buffered : Bool) : MachineM (Unit × List Event) := do
  let capacity ← if buffered then popInt context else pure 0
  if capacity < 0 then abort (.invalidLength .channelCapacity capacity.toInt)
  let channel ← Channel.create capacity.toInt.toNat
  push context channel
  return ((), [.made channel])

def blockForeverNoting (context : Addr) : MachineM (Outcome × List Event) := do
  note .debug fun _ => s!"context @{context} blocks forever on a nil channel"
  Context.setBlocked context true
  return (.block, [.stranded context])

def parkRequestNoting (r : Request) : MachineM (Outcome × List Event) := do
  let request ← Request.create r
  let ((), events) ← Channel.parkNoting request
  Context.setBlocked r.context true
  note .trace fun _ =>
    s!"context @{r.context} parked {r.direction.name} on channel @{r.channel}"
  return (.block, events)

def execSendNoting (context : Addr) (resume : Nat) : MachineM (Outcome × List Event) := do
  let value ← pop context
  let channel ← pop context
  if ← expectChannel channel then
    let copy ← protecting (Value.copy value)
    match ← Channel.trySendNoting channel copy with
    | (.delivered woken, events) => return (← wakeOption (some woken), events)
    | (.buffered, events) => return (.proceed, events)
    | (.wouldBlock, _) => parkRequestNoting (sendRequest context channel copy resume)
  else
    blockForeverNoting context

def execRecvNoting (context : Addr) (resume : Nat) : MachineM (Outcome × List Event) := do
  let channel ← pop context
  if ← expectChannel channel then
    match ← Channel.tryRecvNoting channel with
    | (.received value woken, events) =>
      push context value
      return (← wakeOption woken, events)
    | (.wouldBlock, _) => parkRequestNoting (recvRequest context channel resume unassigned unassigned)
  else
    blockForeverNoting context

def tryCaseNoting (request : Addr) : HeapM (Option (Option Addr) × List Event) := do
  let channel ← Request.channelOf request
  if channel = unassigned then return (none, [])
  match ← Request.directionOf request with
  | .send =>
    let value ← Request.valueOf request
    match ← Channel.trySendNoting channel value with
    | (.delivered woken, events) =>
      let _ ← Channel.complete request none
      return (some (some woken), events)
    | (.buffered, events) =>
      let _ ← Channel.complete request none
      return (some none, events)
    | (.wouldBlock, _) => return (none, [])
  | .recv =>
    match ← Channel.tryRecvNoting channel with
    | (.received value woken, events) =>
      let _ ← Channel.complete request (some value)
      return (some woken, events)
    | (.wouldBlock, _) => return (none, [])

def takeReadyNoting : List Addr → HeapM (Option (Option Addr) × List Event)
  | [] => pure (none, [])
  | request :: rest => do
    match ← tryCaseNoting request with
    | (some woken, events) => return (some woken, events)
    | (none, _) => takeReadyNoting rest

def parkAllNoting : List Addr → HeapM (Unit × List Event)
  | [] => pure ((), [])
  | request :: rest => do
    let ((), first) ← if (← Request.channelOf request) ≠ unassigned then Channel.parkNoting request else pure ((), [])
    let ((), others) ← parkAllNoting rest
    return ((), first ++ others)

def selectAmongNoting (context : Addr) (requests : List Addr) (default? : Option Nat) :
    MachineM (Outcome × List Event) := do
  match ← takeReadyNoting requests with
  | (some woken, events) => return (← wakeOption woken, events)
  | (none, _) =>
    match default? with
    | some target =>
      Context.setPc context target
      return (.proceed, [])
    | none =>
      let ((), events) ← parkAllNoting requests
      Context.setBlocked context true
      note .trace fun _ =>
        s!"context @{context} blocked in select over {requests.length} cases"
      return (.block, Event.blocking context events)

def execSelectNoting (context : Addr) (cases : Nat) (default? : Option Nat) : MachineM (Outcome × List Event) := do
  let requests ← popMany context cases
  requests.forM fun r => (expect r .channelRequest : MachineM Unit)
  selectAmongNoting context (← shuffled requests) default?

/-- The effect of an instruction fetched from `pc`, and what happens on channels. -/
def dispatchNoting (context : Addr) (pc : Nat) : Instruction → MachineM (Outcome × List Event)
  | .makeChan buffered => do
    let ((), events) ← execMakeChanNoting context buffered
    return (.proceed, events)
  | .send => execSendNoting context (pc + 1)
  | .recv => execRecvNoting context (pc + 1)
  | .select cases default? => execSelectNoting context cases default?
  | i => do
    let outcome ← dispatch context pc i
    return (outcome, [])

theorem silently_makeChan (context : Addr) (buffered : Bool) :
    silently (execMakeChanNoting context buffered) = execMakeChan context buffered := by
  have made (capacity : Int64) : silently (do
      if capacity < 0 then abort (.invalidLength .channelCapacity capacity.toInt)
      let channel ← Channel.create capacity.toInt.toNat
      push context channel
      return ((), [.made channel])) = (do
      if capacity < 0 then abort (.invalidLength .channelCapacity capacity.toInt)
      let channel ← Channel.create capacity.toInt.toNat
      push context channel) := by
    have rest : silently (do
        let channel ← Channel.create capacity.toInt.toNat
        push context channel
        return ((), [.made channel]) : MachineM (Unit × List Event)) = (do
        let channel ← Channel.create capacity.toInt.toNat
        push context channel) := silently_bind fun channel => silently_answer _ _
    split
    · exact silently_bind fun _ => rest
    · exact rest
  cases buffered with
  | true => exact silently_bind made
  | false => exact made 0

theorem silently_blockForever (context : Addr) : silently (blockForeverNoting context) = blockForever context :=
  silently_bind fun _ => silently_bind fun _ => rfl

theorem run_heap {α : Type} (action : HeapM α) (m : Machine) : (liftM action : MachineM α) m = match action m.heap with
    | .ok a h => .ok a { m with heap := h }
    | .error e h => .error (e.map .heap) { m with heap := h } := rfl

/-- What an action on the heap notes does not matter for the next action of the machine. -/
theorem silently_heap {α β : Type} {n : HeapM (β × List Event)} {n' : HeapM β} {k : β × List Event → MachineM (α × List Event)}
    {l : β → MachineM α} (first : silently n = n') (next : ∀ b events, silently (k (b, events)) = l b) :
    silently ((liftM n : MachineM (β × List Event)) >>= k) = (liftM n' : MachineM β) >>= l := by
  refine silently_noting (funext fun m => ?_) next
  rw [silently_run, run_heap, run_heap, ← first, silently_run]
  cases n m.heap <;> rfl

theorem silently_parkRequest (r : Request) : silently (parkRequestNoting r) = parkRequest r :=
  silently_bind fun request => silently_heap (Channel.silently_park request) fun _ _ => silently_bind fun _ => silently_bind fun _ => rfl

theorem silently_send (context : Addr) (resume : Nat) : silently (execSendNoting context resume) = execSend context resume := by
  refine silently_bind fun value => silently_bind fun channel => silently_bind fun isChannel => ?_
  cases isChannel with
  | false => exact silently_blockForever context
  | true =>
    refine silently_bind fun copy => silently_heap (Channel.silently_trySend channel copy) fun outcome events => ?_
    cases outcome with
    | delivered woken => exact silently_answer _ _
    | buffered => rfl
    | wouldBlock => exact silently_parkRequest _

theorem silently_recv (context : Addr) (resume : Nat) : silently (execRecvNoting context resume) = execRecv context resume := by
  refine silently_bind fun channel => silently_bind fun isChannel => ?_
  cases isChannel with
  | false => exact silently_blockForever context
  | true =>
    refine silently_heap (Channel.silently_tryRecv channel) fun outcome events => ?_
    cases outcome with
    | received value woken => exact silently_bind fun _ => silently_answer _ _
    | wouldBlock => exact silently_parkRequest _

theorem silently_tryCase (request : Addr) : silently (tryCaseNoting request) = tryCase request := by
  refine silently_bind fun channel => ?_
  split
  · rfl
  refine silently_bind fun direction => ?_
  cases direction with
  | send =>
    refine silently_bind fun value => silently_noting (Channel.silently_trySend channel value) fun outcome events => ?_
    cases outcome with
    | delivered woken => exact silently_bind fun _ => rfl
    | buffered => exact silently_bind fun _ => rfl
    | wouldBlock => rfl
  | recv =>
    refine silently_noting (Channel.silently_tryRecv channel) fun outcome events => ?_
    cases outcome with
    | received value woken => exact silently_bind fun _ => rfl
    | wouldBlock => rfl

theorem silently_takeReady (requests : List Addr) : silently (takeReadyNoting requests) = takeReady requests := by
  induction requests with
  | nil => rfl
  | cons request rest ih =>
    refine silently_noting (silently_tryCase request) fun outcome events => ?_
    cases outcome with
    | some woken => rfl
    | none => exact ih

theorem silently_parkAll (requests : List Addr) : silently (parkAllNoting requests) = parkAll requests := by
  induction requests with
  | nil => rfl
  | cons request rest ih =>
    refine silently_bind fun channel => ?_
    have others (first : List Event) : silently (do
        let ((), others) ← parkAllNoting rest
        return ((), first ++ others)) = parkAll rest :=
      (silently_noting (l := pure) ih fun _ _ => rfl).trans (bind_pure _)
    split
    · exact silently_noting (Channel.silently_park request) fun _ first => others first
    · exact others []

theorem silently_selectAmong (context : Addr) (requests : List Addr) (default? : Option Nat) :
    silently (selectAmongNoting context requests default?) = selectAmong context requests default? := by
  refine silently_heap (silently_takeReady requests) fun outcome events => ?_
  cases outcome with
  | some woken => exact silently_answer _ _
  | none =>
    cases default? with
    | some target => exact silently_bind fun _ => rfl
    | none =>
      exact silently_heap (silently_parkAll requests) fun _ events => silently_bind fun _ => silently_bind fun _ => rfl

theorem silently_select (context : Addr) (cases : Nat) (default? : Option Nat) :
    silently (execSelectNoting context cases default?) = execSelect context cases default? :=
  silently_bind fun _ => silently_bind fun _ => silently_bind fun _ => silently_selectAmong _ _ _

theorem silently_dispatch (context : Addr) (pc : Nat) (i : Instruction) :
    silently (dispatchNoting context pc i) = dispatch context pc i := by
  cases i with
  | makeChan buffered => exact silently_noting (silently_makeChan context buffered) fun _ events => rfl
  | send => exact silently_send _ _
  | recv => exact silently_recv _ _
  | select cases default? => exact silently_select _ _ _
  | _ => exact silently_answer _ _

def executeNoting (context : Addr) (pc : Nat) (i : Instruction) : MachineM (Outcome × List Event) := fun m =>
  let mark := m.heap.temporaries.size
  match dispatchNoting context pc i m with
  | .ok result m => .ok result (m.releaseRoots mark)
  | .error e m => .error e (m.releaseRoots mark)

theorem silently_execute (context : Addr) (pc : Nat) (i : Instruction) :
    silently (executeNoting context pc i) = execute context pc i := by
  funext m
  rw [silently_run, execute, ← silently_dispatch, executeNoting, silently_run]
  cases dispatchNoting context pc i m <;> rfl

end Machine

/-! ### Steps -/

namespace Execution

def advanceNoting : ExecutionM (StepOutcome × List Event) := do
  schedule .dispatch
  match (← get).machine.scheduler.current with
  | none => return (← stall, [])
  | some context =>
    countInstruction
    let (pc, i) ← fetch context
    let (outcome, events) ← Machine.executeNoting context pc i
    Machine.pruneOrigins
    settle context pc outcome
    return (.executed context pc, events)

/-- Execute one instruction unless the execution is over, and note what happens on channels. -/
def stepNoting : ExecutionM (StepOutcome × List Event) := fun e =>
  let e := { e with machine := { e.machine with dirty := [] } }
  if e.finished then .ok (.finished, []) e
  else
    match advanceNoting e with
    | .ok result e => .ok result e
    | .error (.fault f) e => .error (.fault f) e
    | .error (.error cause) e =>
      let m := e.machine.record .error fun _ =>
        s!"process aborted after {e.executed} instructions: {cause.message}"
      .error (.error cause) { e with machine := m, finished := true }

theorem run_machine {α : Type} (action : MachineM α) (x : Execution) :
    (liftM action : ExecutionM α) x = match action x.machine with
      | .ok a m => .ok a { x with machine := m }
      | .error e m => .error e { x with machine := m } := rfl

theorem silently_advance : silently advanceNoting = advance := by
  refine silently_bind fun _ => silently_bind fun x => ?_
  cases x.machine.scheduler.current with
  | none => exact silently_answer _ _
  | some context =>
    refine silently_bind fun _ => silently_bind fun fetched => ?_
    refine silently_noting (p := liftM (Machine.execute context fetched.1 fetched.2)) (funext fun x => ?_)
      fun outcome events => silently_bind fun _ => silently_bind fun _ => rfl
    rw [silently_run, run_machine, run_machine, ← Machine.silently_execute, silently_run]
    cases Machine.executeNoting context fetched.1 fetched.2 x.machine <;> rfl

/-- A noting step is a step. -/
theorem silently_step : silently stepNoting = step := by
  funext x
  rw [silently_run, step, ← silently_advance, stepNoting, silently_run]
  by_cases isOver : x.finished = true
  · simp only [if_pos isOver]
  · simp only [if_neg isOver]
    cases advanceNoting _ with
    | ok result x => rfl
    | error e x => cases e <;> rfl

end Execution

end FiberMachine
