import FiberMachine.Proofs.Graph.Channels
import FiberMachine.Proofs.Graph.Copies
import FiberMachine.Proofs.Graph.Sequences
import FiberMachine.Proofs.Running

/-!
# Operations and the collections in them

Operations that allocate may collect at each of their allocations. An operation is run on two heaps that hold the same objects; in one
of them a collection may come at any point, in the other at other points or not at all. What the operation leaves is the
same graph in both, so it does not show where the collections were. The objects that the operation is given need not be protected by anything.
-/

namespace FiberMachine

/-- An operation that allocates, with what it is given. -/
inductive ObjectOperation where
  | arrayOf (elements : List Addr)
  | extend (env frame : Addr)
  | closure (entry arity : Nat) (env : Addr) (declaration : Nat)
  | method (receiver : Addr) (name : String)
  | context (pc : Nat) (env : Addr) (id : Nat)
  | channel (capacity : Nat)
  | request (request : Request)
  | park (request : Addr)
  | trySend (channel value : Addr)
  | window (array : Addr) (first stop : Nat)
  | ofSlice (slice : Addr) (low high : Option Int)
  | ofArray (array : Addr) (low high : Option Int)
  | append (slice : Addr) (values : List Addr)
  | text (bytes : List UInt8)
  | concat (front back : Addr)
  | pushStack (stack value : Addr)
  | pushQueue (queue value : Addr)
  | pushList (list value : Addr)
  | wait (group context : Addr)
  | copy (value : Addr)
  | duplicate (block : Addr)

/-- What an operation answers. -/
inductive Answer where
  | object (addr : Addr)
  | sent (outcome : SendOutcome)
  | waits (blocked : Bool)
  | done

namespace Answer

/-- The answer with the objects under other names. -/
def map (f : Addr → Addr) : Answer → Answer
  | object a => object (f a)
  | sent o => sent (o.map f)
  | waits b => waits b
  | done => done

/-- The objects in an answer. -/
def addresses : Answer → List Addr
  | object a => [a]
  | sent o => o.addresses
  | waits _ | done => []

end Answer

namespace ObjectOperation

open Heap

/-- The operation on the objects with other names. -/
def map (f : Addr → Addr) : ObjectOperation → ObjectOperation
  | arrayOf xs => arrayOf (xs.map f)
  | extend env frame => extend (f env) (f frame)
  | closure entry arity env declaration => closure entry arity (f env) declaration
  | method receiver name => method (f receiver) name
  | context pc env id => context pc (f env) id
  | channel capacity => channel capacity
  | request q => request (q.map f)
  | park r => park (f r)
  | trySend c x => trySend (f c) (f x)
  | window a first stop => window (f a) first stop
  | ofSlice a low high => ofSlice (f a) low high
  | ofArray a low high => ofArray (f a) low high
  | append a values => append (f a) (values.map f)
  | text bytes => text bytes
  | concat a b => concat (f a) (f b)
  | pushStack a x => pushStack (f a) (f x)
  | pushQueue a x => pushQueue (f a) (f x)
  | pushList a x => pushList (f a) (f x)
  | wait a c => wait (f a) (f c)
  | copy a => copy (f a)
  | duplicate a => duplicate (f a)

def run : ObjectOperation → HeapM Answer
  | arrayOf xs => return .object (← Sequence.arrayOf xs)
  | extend env frame => return .object (← Scope.extend env frame)
  | closure entry arity env declaration => return .object (← Closure.create entry arity env declaration)
  | method receiver name => return .object (← Method.create receiver name)
  | context pc env id => return .object (← Context.create pc env id)
  | channel capacity => return .object (← Channel.create capacity)
  | request q => return .object (← Request.create q)
  | park r => do
    Channel.park r
    return .done
  | trySend c x => return .sent (← Channel.trySend c x)
  | window a first stop => return .object (← Slice.window a first stop)
  | ofSlice a low high => return .object (← Slice.ofSlice a low high)
  | ofArray a low high => return .object (← Slice.ofArray a low high)
  | append a values => return .object (← Slice.append a values)
  | text bytes => return .object (← Text.ofBytes bytes)
  | concat a b => return .object (← Text.concat a b)
  | pushStack a x => do
    Stack.push a x
    return .done
  | pushQueue a x => do
    Queue.push a x
    return .done
  | pushList a x => do
    LinkedList.pushBack a x
    return .done
  | wait a c => return .waits (← WaitGroup.wait a c)
  | copy a => return .object (← Value.copy a)
  | duplicate a => return .object (← Heap.duplicate a)

/-- The objects that an operation is given. -/
def addresses : ObjectOperation → List Addr
  | arrayOf xs => xs
  | extend env frame => [env, frame]
  | closure _ _ env _ | context _ env _ => [env]
  | method receiver _ => [receiver]
  | channel _ | text _ => []
  | request q => [q.context, q.channel, q.value, q.frame, q.environment]
  | park r => [r]
  | window a _ _ | ofSlice a _ _ | ofArray a _ _ | copy a | duplicate a => [a]
  | append a values => a :: values
  | concat a b => [a, b]
  | trySend a x | pushStack a x | pushQueue a x | pushList a x | wait a x => [a, x]

/-- The container that an operation changes, and what is stored there. A request holds its channel. -/
def held : ObjectOperation → List Addr
  | park r => [r]
  | trySend a x | pushStack a x | pushQueue a x | pushList a x | wait a x => [a, x]
  | _ => []

/-- The objects are of the kinds that the operation is for. -/
def Valid (h : Heap) : ObjectOperation → Prop
  | extend env _ => h.tagAt env = .environment
  | request q => h.tagAt q.context = .context ∧ h.tagAt q.channel = .channel ∧ (q.frame ≠ unassigned → h.tagAt q.frame = .frame)
  | park r => h.tagAt r = .channelRequest ∧ h.Attended (h.ref r Request.channelField)
  | trySend c _ => h.tagAt c = .channel ∧ h.Attended c
  | window a _ _ => a ≠ unassigned → h.tagAt a = .array
  | ofSlice a _ _ => h.tagAt a = .slice
  | ofArray a _ _ => h.tagAt a = .array
  | append a _ => h.tagAt a = .slice ∧ (h.ref a Slice.arrayField ≠ unassigned → h.ref a Slice.stopField ≤ h.ref (h.ref a Slice.arrayField) 0)
  | concat a b => h.tagAt a = .string ∧ h.tagAt b = .string
  | pushStack a _ => h.tagAt a = .stack
  | pushQueue a _ => h.tagAt a = .queue
  | pushList a _ => h.tagAt a = .list
  | wait a c => h.tagAt a = .waitGroup ∧ h.tagAt c = .context
  | arrayOf _ | closure .. | method .. | context .. | channel _ | text _ | copy _ | duplicate _ => True

variable {v : View} {h h' k : Heap} {op : ObjectOperation} {x : Answer}

/-- The objects of the answer are the same ones, and so is what was protected or is held now. -/
def Corresponds (op : ObjectOperation) (v : View) (h : Heap) (v' : View) (x y : Answer) : Prop :=
  y = x.map v'.name ∧ (∀ a ∈ x.addresses, v'.blocks a) ∧ ∀ a ∈ h.roots ++ op.held, v'.blocks a ∧ v'.name a = v.name a

section

variable {m m' : HeapM Addr} {as : List Addr}

theorem made (g : Twins v h k) (f : Echoes v h k m m' fun v' _ a b => v'.blocks a ∧ b = v'.name a) (nothing : op.held = []) :
    Echoes v h k (m >>= fun a => Pure.pure (Answer.object a)) (m' >>= fun a => Pure.pure (Answer.object a))
      fun v' _ x y => op.Corresponds v h v' x y := by
  refine f.bind g fun a b v' h' k' g' e => ?_
  rintro ⟨blocks, rfl⟩
  refine .answer g' ⟨rfl, by simpa [Answer.addresses] using blocks, fun c hc => ?_⟩
  rw [nothing, List.append_nil] at hc
  exact ⟨e.shelters.blocks c (.inl hc), e.shelters.name c (.inl hc)⟩

theorem makes {t : Tag} (g : Twins v h k) (f : Echoes v h k m m' fun v' h' a b => Answers t v' h' a b) (nothing : op.held = []) :
    Echoes v h k (m >>= fun a => Pure.pure (Answer.object a)) (m' >>= fun a => Pure.pure (Answer.object a))
      fun v' _ x y => op.Corresponds v h v' x y :=
  made g (f.weaken fun _ _ _ _ q => ⟨q.blocks, q.name⟩) nothing

theorem changes {α β : Type} {m : HeapM α} {m' : HeapM β} {p : α → Answer} {q : β → Answer} {R : View → Heap → α → β → Prop} (g : Twins v h k)
    (f : Spares op.held v h k m m' R) (none : ∀ x, (p x).addresses = []) (same : ∀ v' h' x y, R v' h' x y → q y = (p x).map v'.name) :
    Echoes v h k (m >>= fun x => Pure.pure (p x)) (m' >>= fun y => Pure.pure (q y)) fun v' _ x y => op.Corresponds v h v' x y := by
  refine Echoes.bind g f fun x y v' h' k' g' _ => ?_
  rintro ⟨kept, related⟩
  refine .answer g' ⟨same v' h' x y related, by simp [none], fun c hc => ⟨kept.blocks c (.inl hc), kept.name c (.inl hc)⟩⟩

end

/-- Each operation does the same in both heaps. -/
theorem echoes (g : Twins v h k) (given : ∀ a ∈ op.addresses, v.blocks a) (valid : op.Valid h) :
    Echoes v h k op.run (op.map v.name).run fun v' _ x y => op.Corresponds v h v' x y := by
  have object {a : Addr} (ha : a ∈ op.addresses) : Answers (h.tagAt a) v h a (v.name a) := ⟨given a ha, rfl, rfl⟩
  have kind {a : Addr} {t : Tag} (ha : a ∈ op.addresses) (is : h.tagAt a = t) : Answers t v h a (v.name a) := ⟨given a ha, rfl, is⟩
  cases op with
  | arrayOf xs => exact makes g (.arrayOf g given) rfl
  | extend env frame => exact makes g (.extend g (kind (by simp [addresses]) valid) (object (by simp [addresses]))) rfl
  | closure entry arity env declaration => exact makes g (.closure g (object (by simp [addresses])) entry arity declaration) rfl
  | method receiver name => exact makes g (.method g (object (by simp [addresses])) name) rfl
  | context pc env id => exact makes g (.createContext g (object (by simp [addresses])) pc id) rfl
  | channel capacity => exact makes g (.createChannel g capacity) rfl
  | request q =>
    obtain ⟨context, channel, frame⟩ := valid
    have each (a : Addr) (ha : a ∈ [q.context, q.channel, q.value, q.frame, q.environment]) : v.blocks a := given a ha
    exact makes g (.createRequest g (kind (by simp [addresses]) context) (kind (by simp [addresses]) channel) (each _ (by simp)) (each _ (by simp))
      frame (each _ (by simp))) rfl
  | park r => exact changes g (.park g (kind (by simp [addresses]) valid.1) valid.2) (fun _ => rfl) fun _ _ _ _ _ => rfl
  | trySend c x =>
    refine (Echoes.trySend g (kind (by simp [addresses]) valid.1) (object (a := x) (by simp [addresses])) valid.2).bind g fun o _ v' h' k' g' e => ?_
    rintro ⟨⟨rfl, woken⟩, channel, value⟩
    refine .answer g' ⟨rfl, woken, fun a ha => ?_⟩
    rcases List.mem_append.mp ha with ha | ha
    · exact ⟨e.shelters.blocks a (.inl ha), e.shelters.name a (.inl ha)⟩
    · rcases List.mem_pair.mp ha with rfl | rfl
      · exact ⟨channel.blocks, channel.name.symm⟩
      · exact ⟨value.blocks, value.name.symm⟩
  | window a first stop => exact makes g (.window g (given a (by simp [addresses])) valid first stop) rfl
  | ofSlice a low high => exact makes g (.ofSlice g (kind (by simp [addresses]) valid)) rfl
  | ofArray a low high => exact makes g (.ofArray g (kind (by simp [addresses]) valid)) rfl
  | append a values =>
    exact makes g (.append g (kind (by simp [addresses]) valid.1) valid.2 fun x hx => given x (by simp [addresses, hx])) rfl
  | text bytes => exact makes g (.ofBytes g) rfl
  | concat a b => exact makes g (.concat g (kind (by simp [addresses]) valid.1) (kind (by simp [addresses]) valid.2)) rfl
  | pushStack a x =>
    exact changes g (.pushStack g (kind (by simp [addresses]) valid) (object (by simp [addresses]))) (fun _ => rfl) fun _ _ _ _ _ => rfl
  | pushQueue a x =>
    exact changes g (.pushQueue g (kind (by simp [addresses]) valid) (object (by simp [addresses]))) (fun _ => rfl) fun _ _ _ _ _ => rfl
  | pushList a x =>
    exact changes g (.pushList g (kind (by simp [addresses]) valid) (object (by simp [addresses]))) (fun _ => rfl) fun _ _ _ _ _ => rfl
  | wait a c =>
    exact changes g (.wait g (kind (by simp [addresses]) valid.1) (kind (by simp [addresses]) valid.2)) (fun _ => rfl)
      fun _ _ _ _ same => congrArg Answer.waits same
  | copy a => exact made g (.copy g (given a (by simp [addresses]))) rfl
  | duplicate a => exact makes g ((Echoes.duplicate g (object (by simp [addresses]))).weaken fun _ _ _ _ => And.left) rfl

theorem map_id : op.map id = op := by
  cases op with
  | request q => rfl
  | _ => simp [map]

/-- What an operation answers or changes refers to blocks that are there, wherever a collection came. And what the operation leaves is what the same
one leaves in any other heap with the same objects, with collections at other points or without any, up to the names of the objects. -/
theorem sheltered (g : Twins v h k) (given : ∀ a ∈ op.addresses, v.blocks a) (valid : op.Valid h) (run : op.run h = .ok x h') :
    (∀ a, h'.Live (x.addresses ++ op.held) a → h'.Allocated a) ∧
      (NoMemory (op.map v.name).run k ∨
        ∃ y k' v', (op.map v.name).run k = .ok y k' ∧ Twins v' h' k' ∧ op.Corresponds v h v' x y) := by
  refine ⟨fun a ha => ?_, ?_⟩
  · -- beside itself, the heap holds the same objects under the same names
    have alone : Echoes { v with name := id, extent := h.capacity } h h op.run op.run fun v' _ x y =>
        op.Corresponds { v with name := id, extent := h.capacity } h v' x y := by
      have both := echoes g.self given valid
      rwa [show op.map _ = op from map_id] at both
    rcases alone x h' run with ⟨n, j, full⟩ | ⟨y, j, v', run', g', -, same⟩
    · cases run.symm.trans full
    · refine g'.allocated a (g'.live (fun b hb => ?_) ha).1
      rcases List.mem_append.mp hb with hb | hb
      · exact same.2.1 b hb
      · exact (same.2.2 b (List.mem_append_right _ hb)).1
  · rcases echoes g given valid x h' run with full | ⟨y, k', v', run', g', -, same⟩
    · exact .inl full
    · exact .inr ⟨y, k', v', run', g', same⟩

/-- A push on a queue without room. In the smaller heap there is only garbage left, so the push collects. -/
theorem sheltered_pushQueue : ∃ v h k h' q x, Twins v h k ∧ (pushQueue q q).run h = .ok x h' ∧
    h'.stats.collections = h.stats.collections + 1 ∧ (∀ a, h'.Live (x.addresses ++ [q, q]) a → h'.Allocated a) ∧
    ∃ y k' v', (pushQueue (v.name q) (v.name q)).run k = .ok y k' ∧ k'.stats.collections = k.stats.collections ∧
      Twins v' h' k' ∧ (pushQueue q q).Corresponds v h v' x y := by
  obtain ⟨h₀, small, blank, -⟩ := create_eq (show levelWords minLevel ≤ 16 by decide) (.start none)
  obtain ⟨k₀, large, blank', -⟩ := create_eq (show levelWords minLevel ≤ 64 by decide) (.start none)
  have g₀ := blank.twins blank'
  have setup : Echoes (.blank k₀.capacity) h₀ k₀ (Sequence.newArray 4 >>= fun _ => Queue.create 0) (Sequence.newArray 4 >>= fun _ => Queue.create 0)
      fun v' h' a b => Answers .queue v' h' a b :=
    (Echoes.createSeq g₀ (t := .array) rfl 4).bind g₀ fun _ _ _ _ _ g _ _ => Echoes.createQueue g 0
  have collects : ((create 16 (.start none)).toOption.any fun h => Passes (fun q h => Passes (fun _ h' => h'.stats.collections == h.stats.collections + 1)
      ((pushQueue q q).run h)) ((Sequence.newArray 4 >>= fun _ => Queue.create 0 : HeapM Addr) h)) = true := by decide +kernel
  have roomy : ((create 64 (.start none)).toOption.any fun h => Passes (fun q h => Passes (fun _ h' => h'.stats.collections == h.stats.collections)
      ((pushQueue q q).run h)) ((Sequence.newArray 4 >>= fun _ => Queue.create 0 : HeapM Addr) h)) = true := by decide +kernel
  rw [small] at collects
  rw [large] at roomy
  obtain ⟨q, h, run, collects⟩ := passes_iff.mp collects
  obtain ⟨q', k, run', roomy⟩ := passes_iff.mp roomy
  obtain ⟨x, h', push, more⟩ := passes_iff.mp collects
  obtain ⟨y, k', push', still⟩ := passes_iff.mp roomy
  rcases setup q h run with ⟨_, _, full⟩ | ⟨_, _, v, same, g, -, queue⟩
  · cases run'.symm.trans full
  cases run'.symm.trans same
  obtain ⟨hq, rfl, is⟩ := queue
  obtain ⟨reaches, outcome⟩ := sheltered g (show ∀ a ∈ (pushQueue q q).addresses, v.blocks a by simpa [addresses] using hq) is push
  refine ⟨v, h, k, h', q, x, g, push, beq_iff_eq.mp more, reaches, ?_⟩
  rcases outcome with ⟨_, _, full⟩ | ⟨y', j, v', push₂, g', same⟩
  · cases push'.symm.trans full
  · cases push'.symm.trans push₂
    exact ⟨y, k', v', push', beq_iff_eq.mp still, g', same⟩

end ObjectOperation

end FiberMachine
