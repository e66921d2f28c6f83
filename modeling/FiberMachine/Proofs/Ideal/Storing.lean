import FiberMachine.Proofs.Ideal.Acting
import FiberMachine.Proofs.Ideal.Uses

/-!
# Instructions that store

An instruction that stores values stores copies, so it leaves every array stored once. The exceptions are the instructions on channels, which
pass values on, and a slice that grows: its elements are moved to the new array without being copied.
-/

namespace FiberMachine.Ideal

set_option synthInstance.maxSize 1000

variable {α : Type} {G : Ref → Prop} {A B : List Use} {s s' : Store} {r c d x g q env v array : Ref} {l xs : List Ref} {i j n : Nat}
  {t t' : Tag} {z : Int} {a? b? : Option Int} {b b' : Bool} {D : Ref → List Use}

/-! ### Operands -/

namespace Sparing

instance (cause : MachineError) : Sparing G Engine.store (Engine.abort cause : EngineM α) := throw _

instance : Sparing G Engine.store (Engine.unexpected t t' : EngineM α) := throw _

/-- What concerns only the rest of the engine. -/
theorem beside {h : Engine → α × Engine} (same : ∀ e, (h e).2.store = e.store) : Sparing G Engine.store (modifyGet h : EngineM α) := by
  refine ⟨fun e => Safe.of_ok (show (modifyGet h : EngineM α) e = .ok (h e).1 (h e).2 from rfl) ?_⟩
  rw [same]
  exact .refl

instance : Sparing G Engine.store (Engine.pop c) := by unfold Engine.pop; infer_instance

instance : Sparing G Engine.store (Engine.popOnto c xs n) := by
  induction n generalizing xs <;> unfold Engine.popOnto <;> infer_instance

instance : Sparing G Engine.store (Engine.popMany c n) := by unfold Engine.popMany; infer_instance

instance : Sparing G Engine.store (Engine.popInt c) := by unfold Engine.popInt; infer_instance

instance : Sparing G Engine.store (Engine.popBool c) := by unfold Engine.popBool; infer_instance

instance : Sparing G Engine.store (Engine.push c v) := by unfold Engine.push; infer_instance

end Sparing

namespace Spending

theorem protecting {m : StoreM Ref} (made : Spending G id m A D) : Spending G Engine.store (Engine.protecting m) A D :=
  .bind made.onStore fun _ => .bind .spare fun _ => pure

/-- Something is made and becomes an operand. -/
theorem load {m : StoreM Ref} (made : Spending G id m A D) : Spending G Engine.store (Engine.load c m) A fun _ => [] :=
  .bind made.onStore fun _ => Spending.spare.last (.refl _)

theorem copies : Spending G Engine.store (Engine.copies xs) [] fun ys : List Ref => ys.map .storing := by
  induction xs with
  | nil => exact pure (D := fun ys : List Ref => ys.map .storing)
  | cons v rest ih =>
    refine .bind (protecting copy) fun x => .bind (ih.frame _) fun ys => ?_
    refine (pure (D := fun zs : List Ref => zs.map .storing)).weaken ?_ fun _ => .refl _
    have front : [Use.storing x].Sublist [.storing x, .offering x] := by simp
    exact (List.perm_append_singleton ..).symm.subperm.trans ((List.Sublist.refl (ys.map .storing)).append front).subperm

theorem storeAt : Spending G Engine.store (Engine.storeAt r z v) [.storing v] fun _ => [] := by
  refine .bind .spare fun t => ?_
  split
  · exact setItem.onStore
  · exact .bind sliceSet.onStore fun _ => .bind .spare fun _ => pure (D := fun _ => [])
  · exact fun _ => trivial

/-- A request is made of a value that may be offered. -/
theorem newRequest {p : Request} : Spending G id (newRequest p) ((Obj.request p).offered.map .offering) fun _ => [] := fun _ =>
  Safe.add ((Store.Spends.push (by rw [Obj.uses_eq rfl]; exact .refl _) rfl).weaken List.nil_subperm)

end Spending

/-! ### Variables, scopes and calls -/

namespace Sparing

instance : Sparing G id (copy r) := ⟨Spending.copy.weaken (.refl _) fun _ => List.nil_subperm⟩

instance {m : StoreM Ref} [made : Sparing G id m] : Sparing G Engine.store (Engine.protecting m) := ⟨.protecting made.spending⟩

instance {m : StoreM Ref} [made : Sparing G id m] : Sparing G Engine.store (Engine.load c m) := ⟨.load made.spending⟩

instance : Sparing G Engine.store (Engine.enqueue c) :=
  have : Sparing G Engine.store (modify fun e : Engine => { e with scheduler := e.scheduler.enqueue c } : EngineM PUnit) := beside fun _ => rfl
  by unfold Engine.enqueue; infer_instance

instance : Sparing G Engine.store Engine.freshId := beside fun _ => rfl

instance : Sparing G Engine.store (Engine.shuffled xs) := beside fun _ => rfl

instance {p : Option Ref} : Sparing G id (Engine.expectWoken p) := by cases p <;> unfold Engine.expectWoken <;> infer_instance

instance {kind : ValueKind} : Sparing G id (Engine.zeroValue kind) := by cases kind <;> unfold Engine.zeroValue <;> infer_instance

instance : Sparing G id (newSequence t (List.replicate n 0)) := ⟨Spending.zeros.last (.refl _)⟩

instance : Sparing G id (Engine.newFrame n) := by unfold Engine.newFrame; infer_instance

instance : Sparing G Engine.store (Engine.execLoadVar c i j) := by unfold Engine.execLoadVar; infer_instance

instance : Sparing G Engine.store (Engine.execStoreVar c i j) :=
  ⟨.bind .spare fun _ => .bind Spending.copy.onStore fun _ => .bind .spare fun _ => Spending.assign.onStore.last (List.Sublist.subperm (by simp))⟩

instance : Sparing G Engine.store (Engine.execEnterScope c n) := by unfold Engine.execEnterScope; infer_instance

instance : Sparing G Engine.store (Engine.execExitScope c) := by unfold Engine.execExitScope; infer_instance

instance {p : Machine.Primitive} : Sparing G id (Engine.box p) := by cases p <;> unfold Engine.box <;> infer_instance

instance : Sparing G id (Engine.sameReference? r v) := by
  unfold Engine.sameReference?
  refine bind fun _ => bind fun _ => ?_
  split <;> infer_instance

instance {op : BinaryOp} : Sparing G Engine.store (Engine.onReferences op r v) := by
  unfold Engine.onReferences
  refine bind fun _ => bind fun _ => ?_
  split
  · refine bind fun _ => ?_
    split <;> infer_instance
  · refine bind fun _ => ?_
    split <;> infer_instance
  · infer_instance

instance {p : Except MachineError α} : Sparing G Engine.store (Engine.ofExcept p) := by cases p <;> unfold Engine.ofExcept <;> infer_instance

instance {op : BinaryOp} : Sparing G Engine.store (Engine.applyBinary op r v) := by
  unfold Engine.applyBinary
  refine bind fun _ => bind fun _ => ?_
  split <;> infer_instance

instance {op : BinaryOp} : Sparing G Engine.store (Engine.execBinary c op) := by unfold Engine.execBinary; infer_instance

instance {op : UnaryOp} : Sparing G Engine.store (Engine.applyUnary op r) := by
  unfold Engine.applyUnary
  refine bind fun _ => ?_
  split <;> infer_instance

instance {op : UnaryOp} : Sparing G Engine.store (Engine.execUnary c op) := by unfold Engine.execUnary; infer_instance

instance : Sparing G Engine.store (Engine.execLoadFunc c i j n) := by unfold Engine.execLoadFunc; infer_instance

instance : Sparing G Engine.store (Engine.bindParameters r n xs) := by
  induction xs generalizing n with
  | nil => exact pure ()
  | cons v rest ih =>
    exact ⟨.bind Spending.copy.onStore fun _ => .bind (Spending.setItem.onStore.last (List.Sublist.subperm (by simp))) fun _ => ih.spending⟩

instance : Sparing G Engine.store (Engine.bindArguments r xs) := by unfold Engine.bindArguments; infer_instance

instance : Sparing G Engine.store (Engine.expectArguments xs n) := by unfold Engine.expectArguments; infer_instance

instance : Sparing G Engine.store (Engine.wakeAll xs) := by unfold Engine.wakeAll; infer_instance

instance {method : String} : Sparing G Engine.store (Engine.callMethod c r method xs) := by
  unfold Engine.callMethod
  refine bind fun _ => ?_
  split <;> infer_instance

instance : Sparing G Engine.store (Engine.execCall c i n) := by unfold Engine.execCall; infer_instance

instance : Sparing G Engine.store (Engine.unwind c n) := by
  induction n with
  | zero => unfold Engine.unwind; infer_instance
  | succ n ih =>
    unfold Engine.unwind
    have rest : Sparing G Engine.store (do
        let entry ← popReturn c
        match ← tag entry with
        | .environment =>
          setEnvironment c entry
          Engine.unwind c n
        | .callRef =>
          match ← target entry with
          | some pc =>
            setPc c pc
            return Outcome.proceed
          | none => return Outcome.finish
        | found => Engine.unexpected .callRef found : EngineM Outcome) := by
      refine bind fun _ => bind fun _ => ?_
      split
      · infer_instance
      · refine bind fun _ => ?_
        split <;> infer_instance
      · infer_instance
    infer_instance

instance : Sparing G Engine.store (Engine.execReturn c) := by unfold Engine.execReturn; infer_instance

instance {method : String} : Sparing G Engine.store (Engine.execLoadMethod c method) := by unfold Engine.execLoadMethod; infer_instance

instance {method : String} : Sparing G Engine.store (Engine.execCallMethod c method n) := by unfold Engine.execCallMethod; infer_instance

instance : Sparing G Engine.store (Engine.execGo c n) := by unfold Engine.execGo; infer_instance

instance {depth : Nat} : Sparing G Engine.store (Engine.execPrint depth c n b) := by
  unfold Engine.execPrint
  refine bind fun _ => bind fun _ => ?_
  exact beside fun _ => rfl

/-! ### Collections -/

instance : Sparing G Engine.store (Engine.execMakeArray c n) :=
  ⟨.bind .spare fun _ => .bind .copies fun _ => (Spending.load .newSequence)⟩

/-- A zero value is no array. -/
theorem zeroValue_spends {kind : ValueKind} : Spending G id (Engine.zeroValue kind) [] fun x => [.storing x] := by
  have front {x : Ref} : [Use.storing x].Subperm [.storing x, .offering x] := (List.Sublist.cons_cons _ (List.nil_sublist _)).subperm
  have made {o : Obj} (stored : o.stored = []) (offered : o.offered = []) (waiters : o.wiring.waiters = []) :
      Spending G id (add o) [] fun x => [.storing x] :=
    (Spending.make (fun _ => Obj.uses_eq_nil stored offered) waiters).weaken (.refl _) fun _ => front
  have nil : Spending G id (Pure.pure unassigned) [] fun x => [.storing x] := fun s =>
    .pure ⟨fun H sole => sole.plain fun y hy => ⟨.unassigned, by rw [List.mem_singleton.mp hy]; exact sole.nil, by decide⟩, fun _ _ hq => hq⟩
  cases kind with
  | int => exact made rfl rfl rfl
  | float => exact made rfl rfl rfl
  | bool => exact made rfl rfl rfl
  | string => exact made rfl rfl rfl
  | slice =>
    refine .bind .spare fun _ => ?_
    split
    · exact made rfl rfl rfl
    · exact fun _ => trivial
  | chan => exact nil
  | func => exact nil
  | waitGroup => exact made rfl rfl rfl

instance {kind : ValueKind} : Sparing G Engine.store (Engine.fillZero r kind i n) := by
  induction n generalizing i with
  | zero => exact pure ()
  | succ n ih => exact ⟨.bind zeroValue_spends.onStore fun _ => .bind Spending.setSlot.onStore fun _ => ih.spending⟩

instance {kind : ValueKind} : Sparing G Engine.store (Engine.execMakeSlice c kind b) := by
  unfold Engine.execMakeSlice
  dsimp only
  infer_instance

instance : Sparing G Engine.store (Engine.execIndex c) := by
  unfold Engine.execIndex
  refine bind fun _ => bind fun _ => bind fun _ => ?_
  split <;> infer_instance

instance : Sparing G Engine.store (Engine.execStoreIndex c) := by
  refine ⟨.bind .spare fun _ => .bind .spare fun _ => .bind .spare fun _ => .bind Spending.copy.onStore fun x => ?_⟩
  exact Spending.storeAt.last (List.Sublist.subperm (by simp))

instance : Sparing G Engine.store (Engine.execLen c) := by
  unfold Engine.execLen
  refine bind fun _ => bind fun _ => ?_
  dsimp only
  split <;> infer_instance

instance : Sparing G Engine.store (Engine.execCap c) := by
  unfold Engine.execCap
  refine bind fun _ => bind fun _ => ?_
  dsimp only
  split <;> infer_instance

instance : Sparing G id (Engine.substring r a? b?) := by unfold Engine.substring; infer_instance

instance : Sparing G Engine.store (Engine.execSlice c b b') := by
  unfold Engine.execSlice
  dsimp only
  have rest (high low : Option Int64) : Sparing G Engine.store (do
      let container ← Engine.pop c
      match ← tag container with
      | .array => Engine.load c (ofArray container (low.map Int64.toInt) (high.map Int64.toInt))
      | .slice => Engine.load c (ofSlice container (low.map Int64.toInt) (high.map Int64.toInt))
      | .string => Engine.load c (Engine.substring container (low.map Int64.toInt) (high.map Int64.toInt))
      | found => Engine.unexpected .slice found : EngineM Unit) := by
    refine bind fun _ => bind fun _ => ?_
    split <;> infer_instance
  infer_instance

/-! ### Channels -/

instance : Sparing G Engine.store (Engine.execMakeChan c b) := by
  unfold Engine.execMakeChan
  dsimp only
  infer_instance

instance : Sparing G id (Engine.expectChannel r) := by unfold Engine.expectChannel; infer_instance

instance : Sparing G Engine.store (Engine.blockForever c) := by unfold Engine.blockForever; infer_instance

instance {p : Option Ref} : Sparing G Engine.store (Engine.wakeOption p) := by
  cases p <;> unfold Engine.wakeOption <;> infer_instance

instance : Sparing G id (newRequest (Machine.recvRequest c d n x env)) := make (fun _ => Obj.uses_eq_nil rfl rfl) rfl

instance : Sparing G Engine.store (Engine.execSelectRecv c n) := by unfold Engine.execSelectRecv; infer_instance

instance : Sparing G Engine.store (Engine.execSelectSend c n) :=
  ⟨.bind .spare fun _ => .bind .spare fun _ => .bind .spare fun _ => .bind (.protecting .copy) fun x =>
    .bind (Spending.newRequest.onStore.last (List.sublist_append_right [Use.storing x] [Use.offering x]).subperm) fun _ => .spare⟩

/-! ### Dispatch -/

instance {m : EngineM Outcome} [Sparing G Engine.store m] : Sparing G Engine.store (Engine.quietly m) := by
  unfold Engine.quietly
  infer_instance

instance {m : EngineM Unit} [Sparing G Engine.store m] : Sparing G Engine.store (Engine.proceeding m) := by
  unfold Engine.proceeding
  infer_instance

end Sparing

/-- The instructions that pass values on without copying them. -/
def passes : Instruction → Bool
  | .append _ | .send | .recv | .select .. => true
  | _ => false

theorem dispatch_sparing {depth pc : Nat} {k : Instruction} (copies : passes k = false) :
    Sparing G Engine.store (Engine.dispatch depth c pc k) := by
  unfold Engine.dispatch
  cases k with
  | append | send | recv | select => cases copies
  | _ => infer_instance

/-! ### Slices that grow

A slice that has no room for the values that are appended to it is not changed. The values come after its elements in a new array.
The elements themselves are not copied, so whatever they are, the old and the new array have them in common.
-/

variable {first stop : Nat} {ys values rest : List Ref} {e : Engine}

/-- The slice shows the positions from `first` up to `stop` of an array with items `ys`; the nil slice has no array. -/
structure Store.Window (s : Store) (r array : Ref) (first stop : Nat) (ys : List Ref) : Prop where
  slice : s.objects[r]? = some (.slice array first stop)
  le : first ≤ stop
  within : stop ≤ ys.length
  behind : array = unassigned ∧ ys = [] ∨ array ≠ unassigned ∧ s.objects[array]? = some (.sequence .array ys)

/-- What a slice shows of the items of its array. -/
def shown (first stop : Nat) (ys : List Ref) : List Ref := (ys.drop first).take (stop - first)

namespace Store

/-- Everything but contexts is as it was. -/
def Stands (s s' : Store) : Prop := ∀ (q : Ref) (o : Obj), s.objects[q]? = some o → o.tag ≠ .context → s'.objects[q]? = some o

theorem Stands.trans {s'' : Store} (a : s.Stands s') (b : s'.Stands s'') : s.Stands s'' := fun q o ho other => b q o (a q o ho other) other

theorem Stands.of_appends (appends : Appends s s') : s.Stands s' := fun q o ho _ => appends q o ho

theorem OnlyAt.stands (others : s.OnlyAt c s') (isContext : s.IsTag c .context) : s.Stands s' := by
  intro q o ho other
  by_cases same : q = c
  · subst same
    exact absurd (Store.IsTag.unique ⟨o, ho, rfl⟩ isContext) other
  · exact (others q same).trans ho

theorem Grows.length_le (grows : s.Grows s') : s.objects.length ≤ s'.objects.length := by
  by_contra short
  have known : s.Known s'.objects.length := known_iff.mpr (Nat.not_le.mp short)
  exact Nat.lt_irrefl _ (known_iff.mp (known.grow grows))

theorem Typed.window (typed : s.Typed) (isSlice : s.IsTag r .slice) : ∃ array first stop ys, s.Window r array first stop ys := by
  obtain ⟨array, first, stop, ho⟩ := typed.canonical isSlice
  obtain ⟨le, n, ⟨nil, rfl⟩ | ⟨ys, hys, rfl⟩, within⟩ := typed.good r _ ho
  · exact ⟨array, first, stop, [], ho, le, within, .inl ⟨nil, rfl⟩⟩
  · refine ⟨array, first, stop, ys, ho, le, within, .inr ⟨?_, hys⟩⟩
    rintro rfl
    cases typed.nil.unique ⟨_, hys, rfl⟩

namespace Window

variable (window : s.Window r array first stop ys)
include window

theorem sliceOf : sliceOf r s = .ok (array, first, stop) s := by
  have seen : look Obj.slice? r s = .ok (array, first, stop) s := by rw [look, window.slice]; rfl
  simp only [Ideal.sliceOf, run_bind, seen, run_ite, run_pure, if_pos window.le]

theorem itemsBehind : itemsBehind array s = .ok ys s := by
  rcases window.behind with ⟨nil, rfl⟩ | ⟨other, hys⟩
  · rw [Ideal.itemsBehind, if_pos nil]
    rfl
  · have seen : look Obj.items? array s = .ok (.array, ys) s := by rw [look, hys]; rfl
    rw [Ideal.itemsBehind, if_neg other]
    simp only [items, run_bind, seen, run_pure]

theorem elements : elements r s = .ok (shown first stop ys) s := by
  simp only [Ideal.elements, run_bind, window.sliceOf, window.itemsBehind, run_ite, run_pure, if_pos window.within, shown]

theorem sliceLength : sliceLength r s = .ok (stop - first) s := by
  simp only [Ideal.sliceLength, run_bind, window.sliceOf, run_pure]

theorem sliceCapacity : sliceCapacity r s = .ok (ys.length - first) s := by
  have fits := window.le.trans window.within
  simp only [Ideal.sliceCapacity, run_bind, window.sliceOf, window.itemsBehind, run_ite, run_pure, if_pos fits]
  rcases window.behind with ⟨nil, rfl⟩ | ⟨other, _⟩
  · rw [if_pos nil, List.length_nil, Nat.zero_sub]
  · rw [if_neg other]

/-- A slice is as it was if everything but contexts is. -/
theorem stand (stands : s.Stands s') : s'.Window r array first stop ys where
  slice := stands r _ window.slice nofun
  le := window.le
  within := window.within
  behind := window.behind.imp_right fun ⟨other, hys⟩ => ⟨other, stands array _ hys nofun⟩

end Window

end Store

namespace Store

/-- Appending `n` values moves elements that are arrays. -/
def Moves (s : Store) (r : Ref) (n : Nat) : Prop :=
  ∃ array first stop ys, s.Window r array first stop ys ∧ ys.length - first < stop - first + n ∧ ∃ v ∈ shown first stop ys, s.IsTag v .array

/-- What a slice shows are objects. -/
theorem Window.known {v : Ref} (window : s.Window r array first stop ys) (typed : s.Typed) (hv : v ∈ shown first stop ys) : s.Known v := by
  have item : v ∈ ys := List.mem_of_mem_drop (List.mem_of_mem_take hv)
  rcases window.behind with ⟨-, rfl⟩ | ⟨-, hys⟩
  · cases item
  · rcases typed.good array _ hys with ⟨_, items⟩ | ⟨no, _⟩
    · exact items v item
    · cases no

/-- The same slice shows the same. -/
theorem Moves.before (moves : s'.Moves r n) (typed : s.Typed) (isSlice : s.IsTag r .slice) (stands : s.Stands s') (grows : s.Grows s') :
    s.Moves r n := by
  obtain ⟨array', first', stop', ys', window', full, v, hv, isArray⟩ := moves
  obtain ⟨array, first, stop, ys, window⟩ := typed.window isSlice
  have later := window.stand stands
  obtain ⟨rfl, rfl, rfl⟩ : array = array' ∧ first = first' ∧ stop = stop' := by
    have same := later.slice.symm.trans window'.slice
    simpa using same
  obtain rfl : ys = ys' := by
    rcases later.behind with ⟨nil, rfl⟩ | ⟨other, hys⟩ <;> rcases window'.behind with ⟨nil', rfl⟩ | ⟨other', hys'⟩
    · rfl
    · exact absurd nil other'
    · exact absurd nil' other
    · cases hys.symm.trans hys'
      rfl
  obtain ⟨o, ho⟩ := window.known typed hv
  have tag : s.IsTag v o.tag := ⟨o, ho, rfl⟩
  exact ⟨array, first, stop, ys, window, full, v, hv, isArray.unique (tag.grow grows) ▸ tag⟩

end Store

/-- Values are appended to a slice that has room for them, or whose elements are no arrays. -/
theorem append_spends (typed : s.Typed) (window : s.Window r array first stop ys) (fixed : ¬s.Moves r values.length) :
    Safe Any (append r values) s fun _ s' => s.Spends G (values.map .storing) s' [] := by
  refine Safe.skip window.sliceOf (Safe.skip window.sliceCapacity (Safe.skip window.itemsBehind ?_))
  dsimp only
  rw [if_pos window.within]
  split
  next room =>
    split
    · exact (Spending.putItems s).bind fun _ s₁ spends => Spending.spared.weaken fun _ _ after => spends.trans after
    · exact Spending.spared.weaken fun _ _ spends => spends.weaken List.nil_subperm
  next full =>
    -- the elements that are moved are no arrays
    let spare := List.replicate (Slice.grownCapacity (ys.length - first) (stop - first + values.length) - (stop - first + values.length)) 0
    have other (y : Use) (hy : y ∈ (shown first stop ys ++ spare).map Use.storing) (nil : s.IsTag unassigned .unassigned) :
        ∃ t, s.IsTag y.value t ∧ t ≠ .array := by
      obtain ⟨v, hv, rfl⟩ := List.mem_map.mp hy
      rcases List.mem_append.mp hv with hv | hv
      · obtain ⟨o, ho⟩ := window.known typed hv
        exact ⟨o.tag, ⟨o, ho, rfl⟩, fun array => fixed ⟨_, _, _, ys, window, Nat.not_le.mp full, v, hv, o, ho, array⟩⟩
      · rw [List.eq_of_mem_replicate hv]
        exact ⟨_, nil, by decide⟩
    have perm : (shown first stop ys ++ values ++ spare).Perm (shown first stop ys ++ spare ++ values) := by
      rw [List.append_assoc, List.append_assoc]
      exact List.perm_append_comm.append_left _
    have made : Safe Any (newSequence .array (shown first stop ys ++ values ++ spare)) s fun _ s' => s.Spends G (values.map .storing) s' [] := by
      refine (Spending.newSequence (G := G) s).weaken fun _ s' spends => ⟨fun H sole => ?_, spends.waiters⟩
      refine (spends.sole H ?_).mono (List.sublist_append_right _ _).subperm
      have all := sole.plain fun y hy => other y hy sole.nil
      rw [← List.append_assoc, ← List.map_append] at all
      exact all.mono ((perm.map _).append_right H).subperm
    exact made.bind fun _ s₁ spends => Spending.spared.weaken fun _ _ after => spends.trans after

namespace Engine

theorem copies_length {xs : List Ref} : Safe Any (copies xs) e fun ys _ => ys.length = xs.length := by
  induction xs generalizing e with
  | nil => exact .pure rfl
  | cons x rest ih => exact Safe.any_bind fun _ _ => ih.bind fun ys _ length => .pure (by simp [length])

theorem Quiet.spares {α : Type} {m : EngineM α} {P : α → Store → Prop} (f : Quiet True m e P) (G : Ref → Prop) [Sparing G Engine.store m] :
    Safe Any m e fun a e' => (Calm e.store e'.store ∧ Beside e e' ∧ P a e'.store) ∧ e.store.Spends G [] e'.store [] :=
  f.any.both (Sparing.spending (G := G) e)

theorem execAppend_spends (active : Active e.store c)
    (fixed : ∀ rest target values, values.length = n → e.store.Operands c (rest ++ target :: values) → ¬e.store.Moves target n) :
    Safe Any (execAppend c n) e fun _ e' => e.store.Spends G [] e'.store [] := by
  refine ((Quiet.popMany active n (.inl trivial)).spares G).bind ?_
  rintro xs e₁ ⟨⟨calm₁, -, known, ⟨length, front, before, after⟩, others₁⟩, first⟩
  have active₁ := active.keep calm₁
  refine ((Quiet.pop active₁).spares G).bind ?_
  rintro target e₂ ⟨⟨calm₂, -, -, ⟨low, before', after'⟩, others₂⟩, second⟩
  have active₂ := active₁.keep calm₂
  have operands : e.store.Operands c (low ++ target :: xs) := by simpa [after.unique before'] using before
  refine (((Quiet.copies active₂.typed fun v hv => (known v hv).grow calm₂.grows).any.both copies_length).both (Spending.copies (G := G) e₂)).bind ?_
  rintro ys e₃ ⟨⟨⟨calm₃, -, -, appends⟩, count⟩, third⟩
  have spent : e.store.Spends G [] e₃.store (ys.map .storing) := first.trans (second.trans third)
  have grows := calm₁.grows.trans (calm₂.grows.trans calm₃.grows)
  have stands := ((others₁.stands active.isContext).trans (others₂.stands active₁.isContext)).trans (.of_appends appends)
  -- the slice becomes an operand
  have pushed {e₄ : Engine} {t : Ref} (spent : e.store.Spends G [] e₄.store (ys.map .storing)) (typed : e₄.store.Typed)
      (isSlice : e₄.store.IsTag t .slice) (fixed : ¬e₄.store.Moves t ys.length) :
      Safe Any (load c (append t ys)) e₄ fun _ e' => e.store.Spends G [] e'.store [] := by
    obtain ⟨array, first, stop, zs, window⟩ := typed.window isSlice
    exact store_bind (append_spends (G := G) typed window fixed) fun _ s' appended =>
      safe_store (Spending.spared.weaken fun _ _ last => spent.trans (appended.trans last))
  refine store_bind (R := fun t s' => s' = e₃.store ∧ e₃.store.IsTag target t) (tag_seen.relax fun _ _ => trivial) ?_
  rintro t _ ⟨rfl, is⟩
  cases t
  case slice =>
    obtain ⟨o, ho⟩ := operands.known active.typed target (by simp)
    have tag : e.store.IsTag target o.tag := ⟨o, ho, rfl⟩
    have isSlice : e.store.IsTag target .slice := is.unique (tag.grow grows) ▸ tag
    refine pushed spent calm₃.typed is fun moves => fixed low target xs length operands ?_
    rw [count, length] at moves
    exact moves.before active.typed isSlice stands grows
  case unassigned =>
    refine ((Quiet.protecting (Ideal.Quiet.nilSlice calm₃.typed) fun _ _ _ same ho => same ▸ ho).spares G).bind ?_
    rintro x e₄ ⟨⟨calm₄, -, there⟩, fourth⟩
    refine pushed (spent.trans (fourth.frame _)) calm₄.typed ⟨_, there, rfl⟩ ?_
    -- the nil slice shows nothing
    rintro ⟨array, first, stop, zs, window, _, v, hv, _⟩
    cases there.symm.trans window.slice
    exact List.not_mem_nil hv
  all_goals exact Safe.bind (Q := fun _ _ => False) trivial fun _ _ no => no.elim

end Engine

end FiberMachine.Ideal
