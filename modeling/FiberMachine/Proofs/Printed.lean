import FiberMachine.Execution.Basic
import FiberMachine.Proofs.Running

/-!
# Output, queue and origins of frames

What has been printed is never taken back, also not by an action that fails, and contexts that can run are put at the back of the queue.
Only one instruction prints, few note where a frame comes from, and nothing is forgotten in the course of an instruction, so a relation
between machines that looks at no more than this holds of all other actions.
-/

namespace FiberMachine

/-- The state in which an action ends, whether it succeeds or fails. -/
def finalState {ε σ α : Type} : EStateM.Result ε σ α → σ
  | .ok _ s => s
  | .error _ s => s

/-- The output of the machine has become that of the other, by printing more. -/
def Machine.Prints (m m' : Machine) : Prop := ∃ more, m'.output = m.output ++ more

/-- When origins of frames have been forgotten last is the same. -/
def Machine.SamePruning (m m' : Machine) : Prop := m'.prunedAt = m.prunedAt

/-- Contexts have been put in the queue, and nothing else has happened to the scheduler. -/
def Machine.Queues (m m' : Machine) : Prop := ∃ cs, m'.scheduler = { m.scheduler with ready := m.scheduler.ready ++ cs }

/-- The relation looks at nothing but the scheduler, the output and the origins of frames, and allows to queue contexts. -/
class Machine.Tolerant (R : Machine → Machine → Prop) : Prop where
  same : ∀ {m m' : Machine}, m'.scheduler = m.scheduler → m'.output = m.output → m'.origins = m.origins → m'.prunedAt = m.prunedAt → R m m'
  queue : ∀ (m : Machine) (verb : String) (context : Addr), R m (m.enqueue verb context)
  trans : ∀ {m m₁ m₂ : Machine}, R m m₁ → R m₁ m₂ → R m m₂

/-- The relation allows to print. -/
def Machine.AllowsPrinting (R : Machine → Machine → Prop) : Prop := ∀ (m : Machine) (text : String), R m { m with output := m.output ++ text }

/-- The relation allows to note the origin of a frame. -/
def Machine.AllowsNoting (R : Machine → Machine → Prop) : Prop :=
  ∀ (m : Machine) (f : Addr) (pc : Nat), R m { m with origins := (f, pc) :: m.origins }

/-- The instruction makes a frame. -/
def Instruction.makesFrame : Instruction → Bool
  | .enterScope _ | .selectRecv _ _ | .call _ | .go _ => true
  | _ => false

namespace Machine

variable {α β : Type} {R : Machine → Machine → Prop} [Tolerant R] {m m₁ m₂ : Machine} {c r v d : Addr} {xs : List Addr} {n pc : Nat} {b : Bool}

theorem Prints.trans (first : m.Prints m₁) (next : m₁.Prints m₂) : m.Prints m₂ := by
  obtain ⟨more, same⟩ := first
  obtain ⟨rest, same'⟩ := next
  exact ⟨more ++ rest, by rw [same', same, String.append_assoc]⟩

instance : Tolerant Prints where
  same _ output _ _ := ⟨"", output.trans String.append_empty.symm⟩
  queue _ _ _ := ⟨"", String.append_empty.symm⟩
  trans := .trans

theorem Prints.refl : m.Prints m := Tolerant.same rfl rfl rfl rfl

instance : Tolerant SamePruning where
  same _ _ _ prunedAt := prunedAt
  queue _ _ _ := rfl
  trans first next := Eq.trans next first

instance : Tolerant Queues where
  same scheduler _ _ _ := ⟨[], by rw [scheduler, List.append_nil]⟩
  queue _ _ c := ⟨[c], rfl⟩
  trans := by
    rintro m m₁ m₂ ⟨cs, first⟩ ⟨ds, next⟩
    exact ⟨cs ++ ds, by rw [next, first, List.append_assoc]⟩

theorem Tolerant.refl : R m m := same rfl rfl rfl rfl

/-- What the action leaves of a machine is in the relation to it. -/
def Leaving (R : Machine → Machine → Prop) (action : MachineM α) : Prop := ∀ m : Machine, R m (finalState (action m))

namespace Leaving

@[grind ←] theorem pure (a : α) : Leaving R (pure a) := fun _ => Tolerant.refl

@[grind ←] theorem throw (e : MachineFailure) : Leaving R (throw e : MachineM α) := fun _ => Tolerant.refl

@[grind ←] theorem bind {f : MachineM β} {k : β → MachineM α} (first : Leaving R f) (next : ∀ b, Leaving R (k b)) : Leaving R (f >>= k) := fun m => by
  have before := first m
  rw [run_bind]
  cases run : f m with
  | ok b m₁ =>
    rw [run] at before
    exact Tolerant.trans before (next b m₁)
  | error e m₁ =>
    rw [run] at before
    exact before

@[grind ←] theorem map {f : β → α} {action : MachineM β} (inner : Leaving R action) : Leaving R (f <$> action) := by
  rw [map_eq_pure_bind]
  exact inner.bind fun _ => .pure _

@[grind ←] theorem forM {f : β → MachineM PUnit} {ys : List β} (each : ∀ b, Leaving R (f b)) : Leaving R (ys.forM f) := by
  induction ys with
  | nil => exact .pure _
  | cons b rest ih => exact (each b).bind fun _ => ih

theorem mapM {f : β → MachineM α} {ys : List β} (each : ∀ b, Leaving R (f b)) : Leaving R (ys.mapM f) := by
  induction ys with
  | nil => exact .pure []
  | cons b rest ih =>
    rw [List.mapM_cons]
    exact (each b).bind fun _ => ih.bind fun _ => .pure _

/-- What an action does to the heap prints nothing. -/
@[grind ←] theorem onHeap {action : HeapM α} : Leaving R (liftM action : MachineM α) := fun m => by
  change R m (finalState (Machine.onHeap action m))
  unfold Machine.onHeap
  cases action m.heap <;> exact Tolerant.same rfl rfl rfl rfl

/-- An observation of the heap is an action on it. -/
@[grind ←] theorem onReader {look : HeapReader α} : Leaving R (liftM look : MachineM α) := @onHeap α R _ (liftM look)

omit [Tolerant R] in
theorem modifyGet {f : Machine → α × Machine} (holds : ∀ m : Machine, R m (f m).2) : Leaving R (modifyGet f : MachineM α) := holds

omit [Tolerant R] in
@[grind ←] theorem modify {f : Machine → Machine} (holds : ∀ m : Machine, R m (f m)) : Leaving R (modify f : MachineM PUnit) := holds

@[grind ←] theorem abort {cause : MachineError} : Leaving R (Machine.abort cause : MachineM α) := .throw _

@[grind ←] theorem unexpected {t t' : Tag} : Leaving R (Machine.unexpected r t t' : MachineM α) := .throw _

@[grind ←] theorem note {severity : Severity} {text : Unit → String} : Leaving R (Machine.note severity text) := .modify fun _ => Tolerant.same rfl rfl rfl rfl

@[grind ←] theorem pop : Leaving R (Machine.pop c) := by grind [Machine.pop]

@[grind ←] theorem popOnto : Leaving R (Machine.popOnto c xs n) := by
  induction n generalizing xs with grind [Machine.popOnto]

@[grind ←] theorem popMany : Leaving R (Machine.popMany c n) := by grind [Machine.popMany]

@[grind ←] theorem popInt : Leaving R (Machine.popInt c) := by grind [Machine.popInt]

@[grind ←] theorem popBool : Leaving R (Machine.popBool c) := by grind [Machine.popBool]

@[grind ←] theorem push : Leaving R (Machine.push c v) := by grind [Machine.push]

@[grind ←] theorem protecting {make : HeapM Addr} : Leaving R (Machine.protecting make) := by grind [Machine.protecting]

@[grind ←] theorem copies : Leaving R (Machine.copies xs) := by
  induction xs with grind [Machine.copies]

@[grind ←] theorem load {make : HeapM Addr} : Leaving R (Machine.load c make) := by grind [Machine.load]

@[grind ←] theorem markDirty : Leaving R (Machine.markDirty r v) := .modify fun _ => Tolerant.same rfl rfl rfl rfl

@[grind ←] theorem spawn : Leaving R (Machine.spawn c) := .modify fun m => Tolerant.queue m _ c

@[grind ←] theorem wake : Leaving R (Machine.wake c) := .modify fun m => Tolerant.queue m _ c

@[grind ←] theorem freshId : Leaving R Machine.freshId := modifyGet fun _ => Tolerant.same rfl rfl rfl rfl

omit [Tolerant R] in
@[grind ←] theorem noteOrigin (notes : AllowsNoting R) : Leaving R (Machine.noteOrigin r pc) := .modify fun m => notes m r pc

@[grind ←] theorem shuffled : Leaving R (Machine.shuffled xs) := modifyGet fun _ => Tolerant.same rfl rfl rfl rfl

@[grind ←] theorem get : Leaving R (get : MachineM Machine) := fun _ => Tolerant.refl

/-! ### Instructions -/

@[grind ←] theorem execLoadVar {i j : Nat} : Leaving R (Machine.execLoadVar c i j) := by grind [Machine.execLoadVar]

@[grind ←] theorem execStoreVar {i j : Nat} : Leaving R (Machine.execStoreVar c i j) := by grind [Machine.execStoreVar]

@[grind ←] theorem execEnterScope (notes : AllowsNoting R) : Leaving R (Machine.execEnterScope c pc n) := by grind [Machine.execEnterScope]

@[grind ←] theorem execExitScope : Leaving R (Machine.execExitScope c) := by grind [Machine.execExitScope]

@[grind ←] theorem onReferences {op : BinaryOp} : Leaving R (Machine.onReferences op r v) := by grind [Machine.onReferences]

@[grind ←] theorem ofExcept {p : Except MachineError α} : Leaving R (Machine.ofExcept p) := by cases p with grind [Machine.ofExcept]

@[grind ←] theorem applyBinary {op : BinaryOp} : Leaving R (Machine.applyBinary op r v) := by
  unfold Machine.applyBinary
  refine .bind onReader fun _ => .bind onReader fun _ => ?_
  split <;> grind

@[grind ←] theorem execBinary {op : BinaryOp} : Leaving R (Machine.execBinary c op) := by grind [Machine.execBinary]

@[grind ←] theorem applyUnary {op : UnaryOp} : Leaving R (Machine.applyUnary op r) := by grind [Machine.applyUnary]

@[grind ←] theorem execUnary {op : UnaryOp} : Leaving R (Machine.execUnary c op) := by grind [Machine.execUnary]

@[grind ←] theorem execLoadFunc {entry arity : Nat} : Leaving R (Machine.execLoadFunc c pc entry arity) := by grind [Machine.execLoadFunc]

@[grind ←] theorem bindParameters : Leaving R (Machine.bindParameters r n xs) := by
  induction xs generalizing n with grind [Machine.bindParameters]

@[grind ←] theorem bindArguments (notes : AllowsNoting R) : Leaving R (Machine.bindArguments r xs) := by
  unfold Machine.bindArguments
  refine .bind onReader fun _ => ?_
  split
  · refine .bind abort fun _ => .bind protecting fun _ => .bind bindParameters fun _ => ?_
    grind
  · refine .bind protecting fun _ => .bind bindParameters fun _ => ?_
    grind

@[grind ←] theorem expectArguments : Leaving R (Machine.expectArguments xs n) := by grind [Machine.expectArguments]

@[grind ←] theorem wakeAll : Leaving R (Machine.wakeAll xs) := by grind [Machine.wakeAll]

@[grind ←] theorem callMethod {name : String} : Leaving R (Machine.callMethod c r name xs) := by
  unfold Machine.callMethod
  refine .bind onReader fun _ => ?_
  split <;> grind

@[grind ←] theorem execCall (notes : AllowsNoting R) : Leaving R (Machine.execCall c pc n) := by
  unfold Machine.execCall
  refine .bind popMany fun _ => .bind pop fun _ => .bind onReader fun _ => ?_
  split
  · exact .bind onReader fun _ => .bind onReader fun _ => .bind onReader fun _ => callMethod
  · refine .bind onReader fun _ => .bind (bindArguments notes) fun _ => ?_
    exact .bind onHeap fun _ => .bind onHeap fun _ => .bind onHeap fun _ => .bind onReader fun _ => .bind onHeap fun _ => .pure _

@[grind ←] theorem unwind : Leaving R (Machine.unwind c n) := by
  induction n with
  | zero => exact abort
  | succ n ih =>
    unfold Machine.unwind
    refine .bind onReader fun _ => .bind onReader fun _ => ?_
    split
    · refine .bind abort fun _ => .bind onHeap fun _ => .bind onReader fun _ => ?_
      split <;> grind
    · refine .bind onHeap fun _ => .bind onReader fun _ => ?_
      split <;> grind

@[grind ←] theorem execReturn : Leaving R (Machine.execReturn c) := by grind [Machine.execReturn]

@[grind ←] theorem execLoadMethod {name : String} : Leaving R (Machine.execLoadMethod c name) := by grind [Machine.execLoadMethod]

@[grind ←] theorem execCallMethod {name : String} : Leaving R (Machine.execCallMethod c name n) := by grind [Machine.execCallMethod]

@[grind ←] theorem execGo (notes : AllowsNoting R) : Leaving R (Machine.execGo c n) := by
  unfold Machine.execGo
  refine .bind popMany fun _ => .bind pop fun _ => .bind onReader fun _ => .bind (bindArguments notes) fun _ => .bind freshId fun _ => ?_
  refine .bind onReader fun _ => .bind onHeap fun _ => .bind onHeap fun _ => .bind onHeap fun _ => .bind onHeap fun _ => ?_
  exact .bind spawn fun _ => note

/-- The instruction that prints puts a text behind what has been printed. -/
@[grind ←] theorem execPrint (prints : AllowsPrinting R) : Leaving R (Machine.execPrint c n b) :=
  .bind popMany fun _ => .bind (mapM fun _ => onHeap) fun _ => .modify fun m => prints m _

@[grind ←] theorem execMakeArray : Leaving R (Machine.execMakeArray c n) := by grind [Machine.execMakeArray]

@[grind ←] theorem fillZero {kind : ValueKind} {i : Nat} : Leaving R (Machine.execMakeSlice.fillZero r kind i n) := by
  induction n generalizing i with grind [Machine.execMakeSlice.fillZero]

@[grind ←] theorem execMakeSlice {kind : ValueKind} : Leaving R (Machine.execMakeSlice c kind b) := by grind [Machine.execMakeSlice]

@[grind ←] theorem execIndex : Leaving R (Machine.execIndex c) := by
  unfold Machine.execIndex
  refine .bind popInt fun _ => .bind pop fun _ => .bind onReader fun _ => ?_
  split <;> grind

@[grind ←] theorem storeAt {k : Int} : Leaving R (Machine.storeAt r k v) := by
  unfold Machine.storeAt
  refine .bind onReader fun _ => ?_
  split <;> grind

@[grind ←] theorem execStoreIndex : Leaving R (Machine.execStoreIndex c) := by grind [Machine.execStoreIndex]

@[grind ←] theorem execLen : Leaving R (Machine.execLen c) := by
  unfold Machine.execLen
  refine .bind pop fun _ => .bind onReader fun _ => ?_
  split <;> grind

@[grind ←] theorem execCap : Leaving R (Machine.execCap c) := by
  unfold Machine.execCap
  refine .bind pop fun _ => .bind onReader fun _ => ?_
  split <;> grind

@[grind ←] theorem execSlice {b' : Bool} : Leaving R (Machine.execSlice c b b') := by grind [Machine.execSlice]

@[grind ←] theorem execAppend : Leaving R (Machine.execAppend c n) := by
  unfold Machine.execAppend
  refine .bind popMany fun _ => .bind pop fun _ => .bind copies fun _ => .bind onReader fun _ => ?_
  split <;> grind

@[grind ←] theorem execMakeChan : Leaving R (Machine.execMakeChan c b) := by grind [Machine.execMakeChan]

@[grind ←] theorem blockForever : Leaving R (Machine.blockForever c) := by grind [Machine.blockForever]

@[grind ←] theorem parkRequest {p : Request} : Leaving R (Machine.parkRequest p) := by grind [Machine.parkRequest]

@[grind ←] theorem wakeOption {p : Option Addr} : Leaving R (Machine.wakeOption p) := by cases p with grind [Machine.wakeOption]

@[grind ←] theorem execSend : Leaving R (Machine.execSend c pc) := by
  unfold Machine.execSend
  refine .bind pop fun _ => .bind pop fun _ => .bind onReader fun there => ?_
  split
  · refine .bind protecting fun _ => .bind onHeap fun _ => ?_
    split <;> grind
  · exact blockForever

@[grind ←] theorem execRecv : Leaving R (Machine.execRecv c pc) := by
  unfold Machine.execRecv
  refine .bind pop fun _ => .bind onReader fun there => ?_
  split
  · refine .bind onHeap fun _ => ?_
    split <;> grind
  · exact blockForever

@[grind ←] theorem execSelectSend : Leaving R (Machine.execSelectSend c pc) := by grind [Machine.execSelectSend]

@[grind ←] theorem execSelectRecv (notes : AllowsNoting R) : Leaving R (Machine.execSelectRecv c pc n) := by
  unfold Machine.execSelectRecv
  refine .bind pop fun _ => .bind onReader fun _ => .bind protecting fun _ => .bind onReader fun _ => .bind protecting fun _ => ?_
  exact .bind (noteOrigin notes) fun _ => .bind onHeap fun _ => push

@[grind ←] theorem selectAmong {default? : Option Nat} : Leaving R (Machine.selectAmong c xs default?) := by
  cases default? with grind [Machine.selectAmong]

@[grind ←] theorem execSelect {default? : Option Nat} : Leaving R (Machine.execSelect c n default?) := by grind [Machine.execSelect]

@[grind ←] theorem proceeding {action : MachineM Unit} (inner : Leaving R action) : Leaving R (Machine.proceeding action) := by
  grind [Machine.proceeding]

/-- What an instruction leaves of a machine, if the relation allows what the instruction does besides. -/
theorem dispatch {i : Instruction} (prints : AllowsPrinting R) (notes : i.makesFrame = true → AllowsNoting R) :
    Leaving R (Machine.dispatch c pc i) := by
  cases i with grind [Machine.dispatch, Instruction.makesFrame]

theorem execute {i : Instruction} (prints : AllowsPrinting R) (notes : i.makesFrame = true → AllowsNoting R) :
    Leaving R (Machine.execute c pc i) := fun m => by
  have holds : R m (finalState (Machine.dispatch c pc i m)) := dispatch prints notes m
  have released (m₁ : Machine) (mark : Nat) : R m₁ (m₁.releaseRoots mark) := Tolerant.same rfl rfl rfl rfl
  unfold Machine.execute
  dsimp only
  cases run : Machine.dispatch c pc i m with
  | ok outcome m₁ =>
    rw [run] at holds
    exact Tolerant.trans holds (released m₁ _)
  | error e m₁ =>
    rw [run] at holds
    exact Tolerant.trans holds (released m₁ _)

theorem pruneOrigins (forgets : ∀ (m : Machine) (n : Nat) (origins : FrameOrigins), R m { m with prunedAt := n, origins := origins }) :
    Leaving R Machine.pruneOrigins := by
  refine .bind get fun _ => .bind get fun _ => ?_
  split
  · exact .bind get fun _ => .bind onReader fun _ => .modify fun m => forgets m _ _
  · exact .pure _

end Leaving

/-- No instruction takes back what has been printed. -/
theorem prints_execute {i : Instruction} : m.Prints (finalState (Machine.execute c pc i m)) :=
  Leaving.execute (fun _ text => ⟨text, rfl⟩) (fun _ _ _ _ => ⟨"", String.append_empty.symm⟩) m

/-- Nothing is forgotten in the course of an instruction. -/
theorem samePruning_execute {i : Instruction} : m.SamePruning (finalState (Machine.execute c pc i m)) :=
  Leaving.execute (fun _ _ => rfl) (fun _ _ _ _ => rfl) m

/-- An instruction puts contexts in the queue, and does nothing else to the scheduler. -/
theorem queues_execute {i : Instruction} : m.Queues (finalState (Machine.execute c pc i m)) :=
  Leaving.execute (fun _ _ => ⟨[], by rw [List.append_nil]⟩) (fun _ _ _ _ => ⟨[], by rw [List.append_nil]⟩) m

theorem prints_pruneOrigins : m.Prints (finalState (Machine.pruneOrigins m)) :=
  Leaving.pruneOrigins (fun _ _ _ => ⟨"", String.append_empty.symm⟩) m

theorem queues_pruneOrigins : m.Queues (finalState (Machine.pruneOrigins m)) :=
  Leaving.pruneOrigins (fun _ _ _ => ⟨[], by rw [List.append_nil]⟩) m

end Machine

end FiberMachine
