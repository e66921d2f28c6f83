import FiberMachine.Proofs.Oblivious
import FiberMachine.Proofs.Printed
import FiberMachine.Proofs.Traffic

/-!
# What an instruction does not look at

No instruction looks at the journal, or at how long the turn of its context lasts and has lasted. So it does the same on two machines that
differ in nothing else.
-/

namespace FiberMachine

set_option synthInstance.maxSize 1000

open Heap HeapReader

/-- The machine with another journal, and with another time that a turn takes and has taken. -/
def Machine.retimed (m : Machine) (j : Journal) (used slice : Nat) : Machine :=
  { m with heap := { m.heap with journal := j }, scheduler := { m.scheduler with sliceUsed := used, timeSlice := slice } }

/-- Two machines that differ in nothing else. -/
def Machine.Twin (m m' : Machine) : Prop := ∃ j used slice, m' = m.retimed j used slice

namespace Machine

variable {α β : Type} {m : Machine} {c r v d : Addr} {xs : List Addr} {i j n pc : Nat} {b : Bool}

/-! ### Values -/

instance zeroValue_respects {kind : ValueKind} : Respects Heap.Twin (zeroValue kind) := by
  cases kind <;> unfold zeroValue <;> infer_instance

instance box_respects {p : Primitive} : Respects Heap.Twin p.box := by
  cases p <;> unfold Primitive.box <;> infer_instance

instance substring_respects {low high : Option Int} : Respects Heap.Twin (substring r low high) := by unfold substring; infer_instance

instance sameReference?_oblivious : Oblivious (sameReference? r v) := by
  unfold sameReference?
  refine .bind fun _ => .bind fun _ => ?_
  split <;> infer_instance

instance expectChannel_oblivious : Oblivious (expectChannel r) := by unfold expectChannel; infer_instance

instance tryCase_respects : Respects Heap.Twin (tryCase r) := by
  unfold tryCase
  refine .bind fun channel => ?_
  split
  · infer_instance
  · refine .bind fun direction => ?_
    cases direction with
    | send => exact .bind fun _ => .bind fun o => by cases o <;> infer_instance
    | recv => exact .bind fun o => by cases o <;> infer_instance

instance takeReady_respects : Respects Heap.Twin (takeReady xs) := by
  induction xs with
  | nil => exact .pure _
  | cons q rest ih => exact .bind fun o => by cases o <;> infer_instance

instance parkAll_respects : Respects Heap.Twin (parkAll xs) := by
  induction xs <;> unfold parkAll <;> infer_instance

instance liveOrigins_oblivious {origins : FrameOrigins} : Oblivious (liveOrigins origins) := by
  induction origins with
  | nil => exact .pure _
  | cons p rest ih =>
    have live : Oblivious (do if ← Heap.isFree p.1 then return false else return (← Heap.tag p.1) == .frame) := by infer_instance
    exact @Oblivious.bind _ _ _ _ live fun _ => .bind fun _ => .pure _

/-! ### Actions on the machine -/

/-- What an action does to the heap. -/
instance respects_onHeap {action : HeapM α} [inner : Respects Heap.Twin action] : Respects Twin (liftM action : MachineM α) where
  alike := by
    rintro m _ ⟨j, used, slice, rfl⟩
    have same := inner.alike m.heap { m.heap with journal := j } ⟨j, rfl⟩
    rw [run_heap, run_heap]
    dsimp only [retimed]
    generalize action m.heap = x, action { m.heap with journal := j } = y at same ⊢
    cases same with
    | ok a twin =>
      obtain ⟨j', rfl⟩ := twin
      exact .ok a ⟨j', used, slice, rfl⟩
    | error e twin =>
      obtain ⟨j', rfl⟩ := twin
      exact .error _ ⟨j', used, slice, rfl⟩

instance respects_onReader {look : HeapReader α} [Oblivious look] : Respects Twin (liftM look : MachineM α) :=
  @respects_onHeap α (liftM look) _

instance abort_respects {cause : MachineError} : Respects Twin (abort cause : MachineM α) := .throw _

instance unexpected_respects {t t' : Tag} : Respects Twin (unexpected r t t' : MachineM α) := .throw _

theorem respects_modify {f : Machine → Machine} (same : ∀ m j used slice, f (m.retimed j used slice) = (f m).retimed j used slice) :
    Respects Twin (modify f : MachineM PUnit) := by
  refine .modify ?_
  rintro m _ ⟨j, used, slice, rfl⟩
  exact ⟨j, used, slice, same m j used slice⟩

theorem respects_get {k : Machine → MachineM α} (same : ∀ m j used slice, k (m.retimed j used slice) = k m)
    (next : ∀ m, Respects Twin (k m)) : Respects Twin (get >>= k) := by
  refine .get ?_ next
  rintro m _ ⟨j, used, slice, rfl⟩
  exact same m j used slice

/-- What is noted does not matter. -/
theorem Twin.record {m m' : Machine} (twin : m.Twin m') (severity severity' : Severity) (text text' : Unit → String) :
    (m.record severity text).Twin (m'.record severity' text') := by
  obtain ⟨j, used, slice, rfl⟩ := twin
  exact ⟨_, used, slice, rfl⟩

instance note_respects {severity : Severity} {text : Unit → String} : Respects Twin (note severity text) :=
  .modify fun _ _ twin => twin.record ..

instance pop_respects : Respects Twin (pop c) := by unfold pop; infer_instance

instance popOnto_respects : Respects Twin (popOnto c xs n) := by
  induction n generalizing xs <;> unfold popOnto <;> infer_instance

instance popMany_respects : Respects Twin (popMany c n) := by unfold popMany; infer_instance

instance popInt_respects : Respects Twin (popInt c) := by unfold popInt; infer_instance

instance popBool_respects : Respects Twin (popBool c) := by unfold popBool; infer_instance

instance push_respects : Respects Twin (push c v) := by unfold push; infer_instance

instance protecting_respects {make : HeapM Addr} [Respects Heap.Twin make] : Respects Twin (protecting make) := by
  unfold protecting; infer_instance

instance copies_respects : Respects Twin (copies xs) := by
  induction xs <;> unfold copies <;> infer_instance

instance load_respects {make : HeapM Addr} [Respects Heap.Twin make] : Respects Twin (load c make) := by unfold load; infer_instance

instance markDirty_respects : Respects Twin (markDirty r v) := respects_modify fun _ _ _ _ => rfl

theorem Twin.enqueue {m m' : Machine} (twin : m.Twin m') (verb : String) : (m.enqueue verb c).Twin (m'.enqueue verb c) := by
  obtain ⟨j, used, slice, rfl⟩ := twin
  exact ⟨_, used, slice, rfl⟩

instance spawn_respects : Respects Twin (spawn c) := .modify fun _ _ twin => twin.enqueue _

instance wake_respects : Respects Twin (wake c) := .modify fun _ _ twin => twin.enqueue _

instance freshId_respects : Respects Twin freshId where
  alike := by
    rintro m _ ⟨j, used, slice, rfl⟩
    exact .ok _ ⟨j, used, slice, rfl⟩

instance noteOrigin_respects : Respects Twin (noteOrigin r pc) := respects_modify fun _ _ _ _ => rfl

instance shuffled_respects : Respects Twin (shuffled xs) where
  alike := by
    rintro m _ ⟨j, used, slice, rfl⟩
    exact .ok _ ⟨j, used, slice, rfl⟩

/-! ### Instructions -/

instance execLoadVar_respects : Respects Twin (execLoadVar c i j) := by unfold execLoadVar; infer_instance

instance execStoreVar_respects : Respects Twin (execStoreVar c i j) := by unfold execStoreVar; infer_instance

instance execEnterScope_respects : Respects Twin (execEnterScope c pc n) := by unfold execEnterScope; infer_instance

instance execExitScope_respects : Respects Twin (execExitScope c) := by unfold execExitScope; infer_instance

instance onReferences_respects {op : BinaryOp} : Respects Twin (onReferences op r v) := by
  refine .bind fun _ => .bind fun _ => ?_
  split
  · exact .bind fun same => by cases same <;> infer_instance
  · exact .bind fun same => by cases same <;> infer_instance
  · infer_instance

instance ofExcept_respects {p : Except MachineError α} : Respects Twin (ofExcept p) := by
  cases p <;> unfold ofExcept <;> infer_instance

instance applyBinary_respects {op : BinaryOp} : Respects Twin (applyBinary op r v) := by
  refine .bind fun _ => .bind fun _ => ?_
  split <;> infer_instance

instance execBinary_respects {op : BinaryOp} : Respects Twin (execBinary c op) := by unfold execBinary; infer_instance

instance applyUnary_respects {op : UnaryOp} : Respects Twin (applyUnary op r) := by
  refine .bind fun _ => ?_
  split <;> infer_instance

instance execUnary_respects {op : UnaryOp} : Respects Twin (execUnary c op) := by unfold execUnary; infer_instance

instance execLoadFunc_respects {entry arity : Nat} : Respects Twin (execLoadFunc c pc entry arity) := by unfold execLoadFunc; infer_instance

instance bindParameters_respects : Respects Twin (bindParameters r n xs) := by
  induction xs generalizing n <;> unfold bindParameters <;> infer_instance

instance bindArguments_respects : Respects Twin (bindArguments r xs) := by unfold bindArguments; dsimp only; infer_instance

instance expectArguments_respects : Respects Twin (expectArguments xs n) := by unfold expectArguments; infer_instance

instance wakeAll_respects : Respects Twin (wakeAll xs) := by unfold wakeAll; infer_instance

instance callMethod_respects {name : String} : Respects Twin (callMethod c r name xs) := by
  refine .bind fun _ => ?_
  split <;> infer_instance

instance execCall_respects : Respects Twin (execCall c pc n) := by unfold execCall; infer_instance

instance unwind_respects : Respects Twin (unwind c n) := by
  induction n with
  | zero => exact abort_respects
  | succ n ih =>
    have rest : Respects Twin (do
        let entry ← Context.popReturn c
        match ← tag entry with
        | .environment =>
          Context.setEnvironment c entry
          unwind c n
        | .callRef =>
          match ← ReturnMarker.target entry with
          | some pc =>
            Context.setPc c pc
            return .proceed
          | none => return .finish
        | found => unexpected entry .callRef found : MachineM Outcome) := by
      refine .bind fun entry => .bind fun _ => ?_
      split
      · infer_instance
      · exact .bind fun target? => by cases target? <;> infer_instance
      · infer_instance
    unfold unwind
    refine .bind fun _ => .bind fun _ => ?_
    split
    · exact .bind fun _ => rest
    · exact rest

instance execReturn_respects : Respects Twin (execReturn c) := by unfold execReturn; infer_instance

instance execLoadMethod_respects {name : String} : Respects Twin (execLoadMethod c name) := by unfold execLoadMethod; infer_instance

instance execCallMethod_respects {name : String} : Respects Twin (execCallMethod c name n) := by unfold execCallMethod; infer_instance

instance execGo_respects : Respects Twin (execGo c n) := by unfold execGo; infer_instance

instance execPrint_respects : Respects Twin (execPrint c n b) := .bind fun _ => .bind fun _ => respects_modify fun _ _ _ _ => rfl

instance execMakeArray_respects : Respects Twin (execMakeArray c n) := by unfold execMakeArray; infer_instance

instance fillZero_respects {kind : ValueKind} : Respects Twin (execMakeSlice.fillZero r kind i n) := by
  induction n generalizing i <;> unfold execMakeSlice.fillZero <;> infer_instance

instance execMakeSlice_respects {kind : ValueKind} : Respects Twin (execMakeSlice c kind b) := by unfold execMakeSlice; dsimp only; infer_instance

instance execIndex_respects : Respects Twin (execIndex c) := by
  refine .bind fun _ => .bind fun _ => .bind fun _ => ?_
  split <;> infer_instance

instance storeAt_respects {k : Int} : Respects Twin (storeAt r k v) := by
  refine .bind fun _ => ?_
  split <;> infer_instance

instance execStoreIndex_respects : Respects Twin (execStoreIndex c) := by unfold execStoreIndex; infer_instance

instance execLen_respects : Respects Twin (execLen c) := by
  refine .bind fun _ => .bind fun _ => ?_
  split <;> infer_instance

instance execCap_respects : Respects Twin (execCap c) := by
  refine .bind fun _ => .bind fun _ => ?_
  split <;> infer_instance

instance execSlice_respects {b' : Bool} : Respects Twin (execSlice c b b') := by
  have cut (low high : Option Int) : Respects Twin (do
      let container ← pop c
      match ← tag container with
      | .array => load c (Slice.ofArray container low high)
      | .slice => load c (Slice.ofSlice container low high)
      | .string => load c (substring container low high)
      | found => unexpected container .slice found : MachineM Unit) := by
    refine .bind fun _ => .bind fun _ => ?_
    split <;> infer_instance
  unfold execSlice
  dsimp only
  infer_instance

instance execAppend_respects : Respects Twin (execAppend c n) := by
  refine .bind fun _ => .bind fun _ => .bind fun _ => .bind fun _ => ?_
  split <;> infer_instance

instance execMakeChan_respects : Respects Twin (execMakeChan c b) := by unfold execMakeChan; infer_instance

instance blockForever_respects : Respects Twin (blockForever c) := by unfold blockForever; infer_instance

instance parkRequest_respects {p : Request} : Respects Twin (parkRequest p) := by unfold parkRequest; infer_instance

instance wakeOption_respects {p : Option Addr} : Respects Twin (wakeOption p) := by
  cases p <;> unfold wakeOption <;> infer_instance

instance execSend_respects : Respects Twin (execSend c pc) := by
  refine .bind fun _ => .bind fun _ => .bind fun there => ?_
  split
  · exact .bind fun _ => .bind fun o => by cases o <;> infer_instance
  · infer_instance

instance execRecv_respects : Respects Twin (execRecv c pc) := by
  refine .bind fun _ => .bind fun there => ?_
  split
  · exact .bind fun o => by cases o <;> infer_instance
  · infer_instance

instance execSelectSend_respects : Respects Twin (execSelectSend c pc) := by unfold execSelectSend; infer_instance

instance execSelectRecv_respects : Respects Twin (execSelectRecv c pc n) := by unfold execSelectRecv; infer_instance

instance selectAmong_respects {default? : Option Nat} : Respects Twin (selectAmong c xs default?) := by
  refine .bind fun ready => ?_
  cases ready <;> cases default? <;> infer_instance

instance execSelect_respects {default? : Option Nat} : Respects Twin (execSelect c n default?) := by unfold execSelect; infer_instance

instance proceeding_respects {action : MachineM Unit} [Respects Twin action] : Respects Twin (proceeding action) := by
  unfold proceeding; infer_instance

/-- An instruction does the same. -/
instance dispatch_respects {i : Instruction} : Respects Twin (dispatch c pc i) := by
  cases i <;> unfold dispatch <;> infer_instance

instance execute_respects {i : Instruction} : Respects Twin (execute c pc i) where
  alike := by
    rintro m _ ⟨j, used, slice, rfl⟩
    have same : Alike Twin (dispatch c pc i m) (dispatch c pc i (m.retimed j used slice)) := dispatch_respects.alike _ _ ⟨j, used, slice, rfl⟩
    have size : (m.retimed j used slice).heap.temporaries.size = m.heap.temporaries.size := rfl
    unfold execute
    dsimp only
    rw [size]
    generalize dispatch c pc i m = x, dispatch c pc i (m.retimed j used slice) = y at same ⊢
    cases same with
    | ok o twin =>
      obtain ⟨j', used', slice', rfl⟩ := twin
      exact .ok o ⟨j', used', slice', rfl⟩
    | error e twin =>
      obtain ⟨j', used', slice', rfl⟩ := twin
      exact .error e ⟨j', used', slice', rfl⟩

instance pruneOrigins_respects : Respects Twin pruneOrigins := by
  have keeps (collections : Nat) (origins : FrameOrigins) :
      Respects Twin (modify fun m => { m with prunedAt := collections, origins := origins } : MachineM Unit) := respects_modify fun _ _ _ _ => rfl
  have prunes (collections : Nat) : Respects Twin (do
      let origins ← liveOrigins (← get).origins
      modify fun m => { m with prunedAt := collections, origins := origins } : MachineM Unit) :=
    respects_get (fun _ _ _ _ => rfl) fun _ => .bind (keeps collections)
  refine respects_get (fun _ _ _ _ => rfl) fun _ => respects_get (fun _ _ _ _ => rfl) fun _ => ?_
  infer_instance

end Machine

end FiberMachine
