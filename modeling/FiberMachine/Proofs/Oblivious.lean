import FiberMachine.Object.Value
import FiberMachine.Proofs.Running

/-!
# Actions that do not look at the journal

An action respects a relation between states if it answers alike on states that are related, and leaves them related. Actions are made of
smaller ones, and respect what these do. Nothing on the heap looks at the journal, so whatever is done to a heap respects the relation of
heaps that have all but their journals in common.
-/

namespace FiberMachine

set_option synthInstance.maxSize 1000

/-- Two actions answer or fail alike, and the states that they leave are related. -/
inductive Alike {ε σ α : Type} (R : σ → σ → Prop) : EStateM.Result ε σ α → EStateM.Result ε σ α → Prop
  | ok {s t : σ} (a : α) (related : R s t) : Alike R (.ok a s) (.ok a t)
  | error {s t : σ} (e : ε) (related : R s t) : Alike R (.error e s) (.error e t)

/-- The action does the same to states that are related. -/
class Respects {ε σ α : Type} (R : σ → σ → Prop) (action : EStateM ε σ α) : Prop where
  alike : ∀ s t, R s t → Alike R (action s) (action t)

variable {ε σ α β : Type} {R S : σ → σ → Prop}

theorem Alike.mono {x y : EStateM.Result ε σ α} (alike : Alike R x y) (wider : ∀ s t, R s t → S s t) : Alike S x y := by
  cases alike with
  | ok a related => exact .ok a (wider _ _ related)
  | error e related => exact .error e (wider _ _ related)

namespace Respects

instance pure (a : α) : Respects R (pure a : EStateM ε σ α) := ⟨fun _ _ related => .ok a related⟩

instance throw (e : ε) : Respects R (throw e : EStateM ε σ α) := ⟨fun _ _ related => .error e related⟩

/-- What comes afterwards may tell more states apart. -/
theorem bind_wider {action : EStateM ε σ β} {k : β → EStateM ε σ α} {s t : σ} (first : Respects R action) (related : R s t)
    (wider : ∀ s t, R s t → S s t) (next : ∀ b s t, R s t → Alike S (k b s) (k b t)) : Alike S ((action >>= k) s) ((action >>= k) t) := by
  have before := first.alike s t related
  rw [run_bind, run_bind]
  generalize action s = x, action t = y at before
  cases before with
  | ok b related => exact next b _ _ related
  | error e related => exact .error e (wider _ _ related)

theorem bind {action : EStateM ε σ β} {k : β → EStateM ε σ α} [first : Respects R action] (next : ∀ b, Respects R (k b)) :
    Respects R (action >>= k) := ⟨fun _ _ related => first.bind_wider related (fun _ _ => id) fun b => (next b).alike⟩

instance {action : EStateM ε σ β} {k : β → EStateM ε σ α} [Respects R action] [next : ∀ b, Respects R (k b)] : Respects R (action >>= k) :=
  bind next

instance map {f : β → α} {action : EStateM ε σ β} [Respects R action] : Respects R (f <$> action) := by
  rw [map_eq_pure_bind]
  infer_instance

instance ite {c : Prop} [Decidable c] {first second : EStateM ε σ α} [yes : Respects R first] [no : Respects R second] :
    Respects R (if c then first else second) := by
  split
  · exact yes
  · exact no

instance forM {f : β → EStateM ε σ PUnit} {xs : List β} [∀ b, Respects R (f b)] : Respects R (xs.forM f) := by
  induction xs <;> unfold List.forM <;> infer_instance

instance mapM {f : β → EStateM ε σ α} {xs : List β} [∀ b, Respects R (f b)] : Respects R (xs.mapM f) := by
  induction xs with
  | nil => exact pure []
  | cons b rest ih =>
    rw [List.mapM_cons]
    infer_instance

theorem get_bind {k : σ → EStateM ε σ α} (next : ∀ s t, R s t → Alike R (k s s) (k t t)) : Respects R (get >>= k) := ⟨next⟩

/-- What the action looks at is the same in related states. -/
theorem get {k : σ → EStateM ε σ α} (same : ∀ s t, R s t → k t = k s) (next : ∀ s, Respects R (k s)) : Respects R (get >>= k) := by
  refine .get_bind fun s t related => ?_
  rw [same s t related]
  exact (next s).alike s t related

theorem modify {f : σ → σ} (both : ∀ s t, R s t → R (f s) (f t)) : Respects R (modify f : EStateM ε σ PUnit) :=
  ⟨fun s t related => .ok _ (both s t related)⟩

end Respects

/-- Two heaps that differ at most in their journals. -/
def Heap.Twin (h h' : Heap) : Prop := ∃ j, h' = { h with journal := j }

/-- The observation does not look at the journal. -/
class HeapReader.Oblivious {α : Type} (look : HeapReader α) : Prop where
  same : ∀ (h : Heap) (j : Journal), look { h with journal := j } = look h

open HeapReader Heap

variable {a b c d i j n k lvl : Nat} {w : Word} {t : Tag} {xs : List Nat} {z z' : Int}

namespace HeapReader.Oblivious

instance pure (a : α) : Oblivious (pure a) := ⟨fun _ _ => rfl⟩

instance throw (e : HeapFailure) : Oblivious (throw e : HeapReader α) := ⟨fun _ _ => rfl⟩

theorem bind {first : HeapReader β} {k : β → HeapReader α} [before : Oblivious first] (next : ∀ b, Oblivious (k b)) :
    Oblivious (first >>= k) where
  same h j := by
    rw [run_bind, run_bind, before.same h j]
    cases first h with
    | ok b => exact (next b).same h j
    | error e => rfl

instance {first : HeapReader β} {k : β → HeapReader α} [Oblivious first] [next : ∀ b, Oblivious (k b)] : Oblivious (first >>= k) := bind next

instance ite {c : Prop} [Decidable c] {first second : HeapReader α} [yes : Oblivious first] [no : Oblivious second] :
    Oblivious (if c then first else second) := by
  split
  · exact yes
  · exact no

instance mapM {f : β → HeapReader α} {xs : List β} [∀ b, Oblivious (f b)] : Oblivious (xs.mapM f) := by
  induction xs with
  | nil => exact pure []
  | cons b rest ih =>
    rw [List.mapM_cons]
    infer_instance

end HeapReader.Oblivious

/-! ### Observations -/

namespace Heap

instance reject_oblivious (cause : HeapError) : Oblivious (reject cause : HeapReader α) := .throw _

instance difference_oblivious : Oblivious (difference i j) := by unfold difference; infer_instance

instance remainder_oblivious : Oblivious (remainder i j) := by unfold remainder; infer_instance

instance expectRoom_oblivious : Oblivious (expectRoom n k) := by unfold expectRoom; infer_instance

instance expectListable_oblivious : Oblivious (expectListable n) := by unfold expectListable; infer_instance

instance word_oblivious : Oblivious (word a) := ⟨fun _ _ => rfl⟩

instance field_oblivious {f : BitField} : Oblivious (field f a) := by unfold field; infer_instance

instance isFree_oblivious : Oblivious (isFree a) := by unfold isFree; infer_instance

instance level_oblivious : Oblivious (level a) := by unfold level; infer_instance

instance blockWords_oblivious : Oblivious (blockWords a) := by unfold blockWords; infer_instance

instance payloadWords_oblivious : Oblivious (payloadWords a) := by unfold payloadWords; infer_instance

instance tag_oblivious : Oblivious (tag a) := by unfold tag; infer_instance

instance expect_oblivious : Oblivious (expect a t) := by unfold expect; infer_instance

instance isMarked_oblivious : Oblivious (isMarked a) := by unfold isMarked; infer_instance

instance read_oblivious : Oblivious (read a i) := by unfold read; infer_instance

instance readNat_oblivious : Oblivious (readNat a i) := by unfold readNat; infer_instance

instance readNats_oblivious : Oblivious (readNats a i n) := by
  induction n generalizing i <;> unfold readNats <;> infer_instance

instance previousFree_oblivious : Oblivious (previousFree a) := by unfold previousFree; infer_instance

instance nextFree_oblivious : Oblivious (nextFree a) := by unfold nextFree; infer_instance

instance firstFree_oblivious : Oblivious (firstFree lvl) := ⟨fun _ _ => rfl⟩

instance countedReferences_oblivious : Oblivious (countedReferences a) := by unfold countedReferences; infer_instance

instance children_oblivious : Oblivious (children a) := .bind fun _ => by split <;> infer_instance

end Heap

namespace Sequence

instance length_oblivious : Oblivious (length a) := by unfold length; infer_instance

instance slot_oblivious : Oblivious (slot a i) := by unfold slot; infer_instance

instance position_oblivious : Oblivious (position a z) := by unfold position; infer_instance

instance get_oblivious : Oblivious (get a z) := by unfold get; infer_instance

instance toList_oblivious : Oblivious (toList a) := by unfold toList; infer_instance

end Sequence

namespace Scope

instance getSlot_oblivious : Oblivious (getSlot a i) := by unfold getSlot; infer_instance

instance frame_oblivious : Oblivious (frame a i) := by unfold frame; infer_instance

instance lookup_oblivious : Oblivious (lookup a i j) := by unfold lookup; infer_instance

end Scope

namespace Stack

instance length_oblivious : Oblivious (length a) := by unfold length; infer_instance

instance isEmpty_oblivious : Oblivious (isEmpty a) := by unfold isEmpty; infer_instance

instance storage_oblivious : Oblivious (storage a) := by unfold storage; infer_instance

instance peek_oblivious : Oblivious (peek a) := by unfold peek; infer_instance

end Stack

namespace Queue

instance length_oblivious : Oblivious (length a) := by unfold length; infer_instance

instance storage_oblivious : Oblivious (storage a) := by unfold storage; infer_instance

instance head_oblivious : Oblivious (head a) := by unfold head; infer_instance

instance capacity_oblivious : Oblivious (capacity a) := by unfold capacity; infer_instance

instance isFull_oblivious : Oblivious (isFull a) := by unfold isFull; infer_instance

instance itemsFrom_oblivious : Oblivious (itemsFrom a b c i n) := by
  induction n generalizing i <;> unfold itemsFrom <;> infer_instance

instance items_oblivious : Oblivious (items a) := by unfold items; infer_instance

end Queue

namespace LinkedList

instance length_oblivious : Oblivious (length a) := by unfold length; infer_instance

instance first_oblivious : Oblivious (first a) := by unfold first; infer_instance

instance last_oblivious : Oblivious (last a) := by unfold last; infer_instance

instance value_oblivious : Oblivious (value a) := by unfold value; infer_instance

instance before_oblivious : Oblivious (before a) := by unfold before; infer_instance

instance after_oblivious : Oblivious (after a) := by unfold after; infer_instance

instance findFrom_oblivious {p : Addr → HeapReader Bool} [∀ v, Oblivious (p v)] : Oblivious (findFrom p a n) := by
  induction n generalizing a <;> unfold findFrom <;> infer_instance

instance find?_oblivious {p : Addr → HeapReader Bool} [∀ v, Oblivious (p v)] : Oblivious (find? a p) :=
  .bind fun _ => ⟨fun h j => findFrom_oblivious.same h j⟩

instance valuesFrom_oblivious : Oblivious (valuesFrom a n) := by
  induction n generalizing a <;> unfold valuesFrom <;> infer_instance

instance values_oblivious : Oblivious (values a) :=
  .bind fun _ => .bind fun _ => .bind fun _ => ⟨fun h j => valuesFrom_oblivious.same h j⟩

end LinkedList

namespace Slice

instance array_oblivious : Oblivious (array a) := by unfold array; infer_instance

instance first_oblivious : Oblivious (first a) := by unfold first; infer_instance

instance stop_oblivious : Oblivious (stop a) := by unfold stop; infer_instance

instance length_oblivious : Oblivious (length a) := by unfold length; infer_instance

instance capacity_oblivious : Oblivious (capacity a) := by unfold capacity; infer_instance

instance position_oblivious : Oblivious (position a z) := by unfold position; infer_instance

instance get_oblivious : Oblivious (get a z) := by unfold get; infer_instance

instance elements_oblivious : Oblivious (elements a) := by unfold elements; infer_instance

instance checkBounds_oblivious : Oblivious (checkBounds z z' n) := by unfold checkBounds; infer_instance

end Slice

namespace Text

instance length_oblivious : Oblivious (length a) := by unfold length; infer_instance

instance byteAt_oblivious : Oblivious (byteAt a i) := by unfold byteAt; infer_instance

instance get_oblivious : Oblivious (get a z) := by unfold get; infer_instance

instance unpackFrom_oblivious : Oblivious (unpackFrom a i n) := by
  induction n generalizing i <;> unfold unpackFrom <;> infer_instance

instance bytes_oblivious : Oblivious (bytes a) := by unfold bytes; infer_instance

instance toString_oblivious : Oblivious (Text.toString a) := by unfold Text.toString; infer_instance

end Text

namespace Scalar

instance int_oblivious : Oblivious (int a) := by unfold int; infer_instance

instance float_oblivious : Oblivious (float a) := by unfold float; infer_instance

instance bool_oblivious : Oblivious (bool a) := by unfold bool; infer_instance

instance expectInt_oblivious : Oblivious (expectInt a) := by unfold expectInt; infer_instance

instance expectBool_oblivious : Oblivious (expectBool a) := by unfold expectBool; infer_instance

end Scalar

namespace Closure

instance entry_oblivious : Oblivious (entry a) := by unfold entry; infer_instance

instance arity_oblivious : Oblivious (arity a) := by unfold arity; infer_instance

instance environment_oblivious : Oblivious (environment a) := by unfold environment; infer_instance

instance declaration_oblivious : Oblivious (declaration a) := by unfold declaration; infer_instance

end Closure

namespace Method

instance receiver_oblivious : Oblivious (receiver a) := by unfold receiver; infer_instance

instance name_oblivious : Oblivious (name a) := by unfold name; infer_instance

end Method

instance ReturnMarker.target_oblivious : Oblivious (ReturnMarker.target a) := by unfold ReturnMarker.target; infer_instance

namespace Context

instance pc_oblivious : Oblivious (pc a) := by unfold pc; infer_instance

instance operandStack_oblivious : Oblivious (operandStack a) := by unfold operandStack; infer_instance

instance returnStack_oblivious : Oblivious (returnStack a) := by unfold returnStack; infer_instance

instance environment_oblivious : Oblivious (environment a) := by unfold environment; infer_instance

instance isBlocked_oblivious : Oblivious (isBlocked a) := by unfold isBlocked; infer_instance

instance waitList_oblivious : Oblivious (waitList a) := by unfold waitList; infer_instance

instance id_oblivious : Oblivious (id a) := by unfold id; infer_instance

instance peekOperand_oblivious : Oblivious (peekOperand a) := by unfold peekOperand; infer_instance

end Context

namespace Request

instance contextOf_oblivious : Oblivious (contextOf a) := by unfold contextOf; infer_instance

instance channelOf_oblivious : Oblivious (channelOf a) := by unfold channelOf; infer_instance

instance resumeOf_oblivious : Oblivious (resumeOf a) := by unfold resumeOf; infer_instance

instance directionOf_oblivious : Oblivious (directionOf a) := by unfold directionOf; infer_instance

instance valueOf_oblivious : Oblivious (valueOf a) := by unfold valueOf; infer_instance

instance frameOf_oblivious : Oblivious (frameOf a) := by unfold frameOf; infer_instance

instance environmentOf_oblivious : Oblivious (environmentOf a) := by unfold environmentOf; infer_instance

end Request

namespace Channel

instance capacity_oblivious : Oblivious (capacity a) := by unfold capacity; infer_instance

instance buffer_oblivious : Oblivious (buffer a) := by unfold buffer; infer_instance

instance waiters_oblivious : Oblivious (waiters a) := by unfold waiters; infer_instance

instance length_oblivious : Oblivious (length a) := by unfold length; infer_instance

instance opposes_oblivious {u : Direction} : Oblivious (opposes c u xs) := by
  induction xs <;> unfold opposes <;> infer_instance

end Channel

namespace WaitGroup

instance counter_oblivious : Oblivious (counter a) := by unfold counter; infer_instance

instance waiters_oblivious : Oblivious (waiters a) := by unfold waiters; infer_instance

end WaitGroup

namespace Value

instance displayWithin_oblivious : Oblivious (displayWithin n a) := by
  induction n generalizing a with
  | zero => exact .throw _
  | succ n ih =>
    unfold displayWithin
    refine .bind fun t => ?_
    split <;> infer_instance

instance display_oblivious : Oblivious (display a) := ⟨fun h j => displayWithin_oblivious.same h j⟩

end Value

/-! ### Actions on the heap -/

namespace Heap

/-- An observation, as an action. -/
instance respects_look {look : HeapReader α} [oblivious : Oblivious look] : Respects Twin (liftM look : HeapM α) where
  alike := by
    rintro h _ ⟨j, rfl⟩
    have same := oblivious.same h j
    rw [HeapM.run_lift, HeapM.run_lift, same]
    cases look h with
    | ok a => exact .ok a ⟨j, rfl⟩
    | error e => exact .error e ⟨j, rfl⟩

theorem respects_modify {f : Heap → Heap} (same : ∀ h j, f { h with journal := j } = { f h with journal := j }) :
    Respects Twin (modify f : HeapM PUnit) := by
  refine .modify ?_
  rintro h _ ⟨j, rfl⟩
  exact ⟨j, same h j⟩

theorem respects_get {k : Heap → HeapM α} (same : ∀ h j, k { h with journal := j } = k h) (next : ∀ h, Respects Twin (k h)) :
    Respects Twin (get >>= k) := by
  refine .get ?_ next
  rintro h _ ⟨j, rfl⟩
  exact same h j

instance withRoots_respects {action : HeapM α} [inner : Respects Twin action] : Respects Twin (withRoots xs action) where
  alike := by
    rintro h _ ⟨j, rfl⟩
    have before := inner.alike { h with temporaries := h.temporaries ++ xs } { h with temporaries := h.temporaries ++ xs, journal := j } ⟨j, rfl⟩
    unfold withRoots
    dsimp only at before ⊢
    generalize action { h with temporaries := h.temporaries ++ xs } = x,
      action { h with temporaries := h.temporaries ++ xs, journal := j } = y at before ⊢
    cases before with
    | ok a related =>
      obtain ⟨j', rfl⟩ := related
      exact .ok a ⟨j', rfl⟩
    | error e related =>
      obtain ⟨j', rfl⟩ := related
      exact .error e ⟨j', rfl⟩

instance setWord_respects : Respects Twin (setWord a w) where
  alike := by
    rintro h _ ⟨j, rfl⟩
    unfold setWord
    dsimp only
    split
    · exact .ok _ ⟨j, rfl⟩
    · exact .error _ ⟨j, rfl⟩

instance setField_respects {f : BitField} : Respects Twin (setField f a w) := by unfold setField; infer_instance

instance setTag_respects : Respects Twin (setTag a t) := by unfold setTag; infer_instance

instance setMark_respects {m : Bool} : Respects Twin (setMark a m) := by unfold setMark; infer_instance

instance write_respects : Respects Twin (write a i w) := by unfold write; infer_instance

instance writeNat_respects : Respects Twin (writeNat a i n) := by unfold writeNat; infer_instance

instance writeNats_respects : Respects Twin (writeNats a i xs) := by
  induction xs generalizing i <;> unfold writeNats <;> infer_instance

instance registerContext_respects : Respects Twin (registerContext c) := respects_modify fun _ _ => rfl

instance retireContext_respects : Respects Twin (retireContext c) := respects_modify fun _ _ => rfl

instance pushRoot_respects : Respects Twin (pushRoot a) := respects_modify fun _ _ => rfl

/-- What is noted does not matter. -/
theorem Twin.note {h h' : Heap} (twin : h.Twin h') (severity : Severity) (text text' : Unit → String) :
    Alike Twin (Heap.note severity text h) (Heap.note severity text' h') := by
  obtain ⟨j, rfl⟩ := twin
  exact .ok _ ⟨_, rfl⟩

instance setPreviousFree_respects : Respects Twin (setPreviousFree a b) := by unfold setPreviousFree; infer_instance

instance setNextFree_respects : Respects Twin (setNextFree a b) := by unfold setNextFree; infer_instance

instance setFirstFree_respects {first : Option Addr} : Respects Twin (setFirstFree lvl first) := respects_modify fun _ _ => rfl

instance pushFree_respects : Respects Twin (pushFree a lvl) := .bind fun _ => .bind fun first => by cases first <;> infer_instance

instance unlinkFree_respects : Respects Twin (unlinkFree a lvl) := by unfold unlinkFree; infer_instance

instance splitFree_respects : Respects Twin (splitFree a lvl n) := by
  induction n <;> unfold splitFree <;> infer_instance

instance takeFreeFrom_respects : Respects Twin (takeFreeFrom lvl k n) := by
  induction n generalizing k with
  | zero => exact .pure _
  | succ n ih => exact .bind fun found => by cases found <;> infer_instance

instance takeFree_respects : Respects Twin (takeFree lvl) := respects_get (fun _ _ => rfl) fun _ => takeFreeFrom_respects

instance mergeFree_respects : Respects Twin (mergeFree a lvl n) := by
  induction n generalizing a lvl <;> unfold mergeFree <;> infer_instance

instance release_respects : Respects Twin (release a) :=
  .bind fun _ => respects_get (fun _ _ => rfl) fun _ => .bind fun _ => pushFree_respects

instance markAll_respects : Respects Twin (markAll n xs) := by
  induction n generalizing xs <;> cases xs <;> unfold markAll <;> infer_instance

instance mark_respects : Respects Twin (mark a) := respects_get (fun _ _ => rfl) fun _ => markAll_respects

instance unmark_respects {bs : List Block} : Respects Twin (unmark bs) := by
  induction bs <;> unfold unmark <;> infer_instance

theorem blocksFrom_journal {h : Heap} {j : Journal} : blocksFrom { h with journal := j } a n = h.blocksFrom a n := by
  induction n generalizing a with
  | zero => rfl
  | succ n ih => simp only [blocksFrom, ih]

instance collect_respects : Respects Twin collect := by
  have same (h : Heap) (j : Journal) : blocks { h with journal := j } = h.blocks := blocksFrom_journal
  refine respects_get (fun _ _ => rfl) fun _ => .bind fun _ => respects_get (fun h j => by rw [same]) fun _ => .bind fun dead => .bind fun _ => ?_
  exact @Respects.bind _ _ _ _ _ _ _ (respects_modify fun _ _ => rfl) fun _ => .get_bind fun _ _ twin => twin.note ..

instance clear_respects : Respects Twin (clear a n) := by
  induction n generalizing a <;> unfold clear <;> infer_instance

instance obtain_respects : Respects Twin (Heap.obtain lvl) := .bind fun found => by cases found <;> infer_instance

instance allocate_respects : Respects Twin (allocate n) := by
  have rest : Respects Twin (do
      let some addr ← Heap.obtain (levelFor n) | reject (.outOfMemory n)
      setWord addr (Header.fresh false (levelFor n))
      clear (addr + 1) (levelWords (levelFor n) - 1)
      return addr : HeapM Addr) := .bind fun found => by cases found <;> infer_instance
  refine respects_get (fun _ _ => rfl) fun _ => ?_
  dsimp only
  infer_instance

instance allocateTagged_respects : Respects Twin (allocateTagged t n) := by unfold allocateTagged; infer_instance

instance copyWords_respects : Respects Twin (copyWords a b i n) := by
  induction n generalizing i <;> unfold copyWords <;> infer_instance

instance copy_respects : Respects Twin (Heap.copy a b) := by unfold Heap.copy; infer_instance

instance duplicate_respects : Respects Twin (duplicate a) := by unfold duplicate; infer_instance

end Heap

/-! ### Objects -/

namespace Sequence

instance create_respects : Respects Twin (create t n) := by unfold create; infer_instance

instance setSlot_respects : Respects Twin (setSlot a i b) := by unfold setSlot; infer_instance

instance set_respects : Respects Twin (set a z b) := by unfold set; infer_instance

instance setSlots_respects : Respects Twin (setSlots a i xs) := by unfold setSlots; infer_instance

instance copySlots_respects : Respects Twin (copySlots a i b j n) := by
  induction n generalizing i j <;> unfold copySlots <;> infer_instance

instance newArray_respects : Respects Twin (newArray n) := by unfold newArray; infer_instance

instance arrayOf_respects : Respects Twin (arrayOf xs) := by unfold arrayOf; infer_instance

end Sequence

namespace Scope

instance newFrame_respects : Respects Twin (newFrame n) := by unfold newFrame; infer_instance

instance setSlot_respects : Respects Twin (setSlot a i b) := by unfold setSlot; infer_instance

instance extend_respects : Respects Twin (extend a b) := by unfold extend; infer_instance

instance assign_respects : Respects Twin (assign a i j b) := by unfold assign; infer_instance

end Scope

namespace Stack

instance create_respects : Respects Twin create := by unfold create; infer_instance

instance room_respects : Respects Twin (room a n b) := by unfold room; infer_instance

instance push_respects : Respects Twin (push a b) := by unfold push; infer_instance

instance pop_respects : Respects Twin (pop a) := by unfold pop; infer_instance

end Stack

namespace Queue

instance create_respects : Respects Twin (create n) := by unfold create; infer_instance

instance tryPush_respects : Respects Twin (tryPush a b) := by unfold tryPush; infer_instance

instance grow_respects : Respects Twin (grow a b) := by unfold grow; infer_instance

instance push_respects : Respects Twin (push a b) := by unfold push; infer_instance

instance pop_respects : Respects Twin (pop a) := by unfold pop; infer_instance

end Queue

namespace LinkedList

instance create_respects : Respects Twin create := by unfold create; infer_instance

instance pushBack_respects : Respects Twin (pushBack a b) := by unfold pushBack; dsimp only; infer_instance

instance unlink_respects : Respects Twin (unlink a b) := by unfold unlink; dsimp only; infer_instance

instance takeFirst_respects {p : Addr → HeapReader Bool} [∀ v, Oblivious (p v)] : Respects Twin (takeFirst a p) :=
  .bind fun found => by cases found <;> infer_instance

instance remove_respects : Respects Twin (remove a b) := by unfold remove; infer_instance

instance clear_respects : Respects Twin (clear a) := by unfold clear; infer_instance

end LinkedList

namespace Slice

instance window_respects : Respects Twin (window a i j) := by unfold window; infer_instance

instance nil_respects : Respects Twin nil := by unfold nil; infer_instance

instance set_respects : Respects Twin (set a z b) := by unfold set; infer_instance

instance ofSlice_respects {low high : Option Int} : Respects Twin (ofSlice a low high) := by unfold ofSlice; infer_instance

instance ofArray_respects {low high : Option Int} : Respects Twin (ofArray a low high) := by unfold ofArray; infer_instance

instance append_respects : Respects Twin (append a xs) := by unfold append; infer_instance

end Slice

namespace Text

instance writeBytes_respects {bytes : List UInt8} : Respects Twin (writeBytes a i bytes n) := by
  induction n generalizing i bytes <;> unfold writeBytes <;> infer_instance

instance newBytes_respects {bytes : List UInt8} : Respects Twin (newBytes bytes) := by unfold newBytes; infer_instance

instance ofBytes_respects {bytes : List UInt8} : Respects Twin (ofBytes bytes) := by unfold ofBytes; infer_instance

instance ofString_respects {s : String} : Respects Twin (ofString s) := by unfold ofString; infer_instance

instance concat_respects : Respects Twin (concat a b) := by unfold concat; infer_instance

end Text

namespace Scalar

instance box_respects : Respects Twin (box t w) := by unfold box; infer_instance

instance newInt_respects {v : Int64} : Respects Twin (newInt v) := by unfold newInt; infer_instance

instance newFloat_respects {v : Binary64} : Respects Twin (newFloat v) := by unfold newFloat; infer_instance

instance newBool_respects {v : Bool} : Respects Twin (newBool v) := by unfold newBool; infer_instance

end Scalar

instance Closure.create_respects : Respects Twin (Closure.create i j a n) := by unfold Closure.create; infer_instance

instance Method.create_respects {name : String} : Respects Twin (Method.create a name) := by unfold Method.create; infer_instance

instance ReturnMarker.create_respects {p : Option Nat} : Respects Twin (ReturnMarker.create p) := by unfold ReturnMarker.create; infer_instance

namespace Context

instance setPc_respects : Respects Twin (setPc a n) := by unfold setPc; infer_instance

instance setEnvironment_respects : Respects Twin (setEnvironment a b) := by unfold setEnvironment; infer_instance

instance setBlocked_respects {m : Bool} : Respects Twin (setBlocked a m) := by unfold setBlocked; infer_instance

instance create_respects : Respects Twin (create n a i) := by unfold create; infer_instance

instance pushOperand_respects : Respects Twin (pushOperand a b) := by unfold pushOperand; infer_instance

instance popOperand_respects : Respects Twin (popOperand a) := by unfold popOperand; infer_instance

instance pushReturn_respects : Respects Twin (pushReturn a b) := by unfold pushReturn; infer_instance

instance popReturn_respects : Respects Twin (popReturn a) := by unfold popReturn; infer_instance

instance enterEnvironment_respects : Respects Twin (enterEnvironment a b) := by unfold enterEnvironment; infer_instance

end Context

instance Request.create_respects {r : Request} : Respects Twin (Request.create r) := by unfold Request.create; infer_instance

namespace Channel

instance create_respects : Respects Twin (create n) := by unfold create; infer_instance

instance takeWaiter_respects {u : Direction} : Respects Twin (takeWaiter a u) := by unfold takeWaiter; infer_instance

instance cancelWaits_respects : Respects Twin (cancelWaits a) := by unfold cancelWaits; infer_instance

instance deliver_respects : Respects Twin (deliver a b c) := by unfold deliver; infer_instance

instance complete_respects {value : Option Addr} : Respects Twin (complete a value) := by
  cases value <;> unfold complete <;> infer_instance

instance trySend_respects : Respects Twin (trySend a b) := .bind fun request => by cases request <;> infer_instance

instance tryRecv_respects : Respects Twin (tryRecv a) := by
  refine .bind fun buffer => .bind fun value => ?_
  cases value <;> exact .bind fun request => by cases request <;> infer_instance

instance park_respects : Respects Twin (park a) := by unfold park; dsimp only; infer_instance

end Channel

namespace WaitGroup

instance create_respects : Respects Twin create := by unfold create; infer_instance

instance releaseFrom_respects : Respects Twin (releaseFrom a n) := by
  induction n with
  | zero => exact .pure _
  | succ n ih => exact .bind fun context => by cases context <;> infer_instance

instance releaseAll_respects : Respects Twin (releaseAll a) := by unfold releaseAll; infer_instance

instance add_respects {delta : Int64} : Respects Twin (add a delta) := by unfold add; infer_instance

instance done_respects : Respects Twin (done a) := by unfold done; infer_instance

instance wait_respects : Respects Twin (wait a c) := by unfold wait; infer_instance

end WaitGroup

namespace Value

instance fillSlots_respects {f : Addr → HeapM Addr} [∀ v, Respects Twin (f v)] : Respects Twin (fillSlots f a i xs) := by
  induction xs generalizing i <;> unfold fillSlots <;> infer_instance

instance copyWithin_respects : Respects Twin (copyWithin n a) := by
  induction n generalizing a with
  | zero => exact .throw _
  | succ n ih =>
    unfold copyWithin
    refine .bind fun t => ?_
    split <;> infer_instance

instance copy_respects : Respects Twin (copy a) := respects_get (fun _ _ => rfl) fun _ => copyWithin_respects

end Value

end FiberMachine
