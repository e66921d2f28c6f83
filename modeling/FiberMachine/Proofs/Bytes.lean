import FiberMachine.Proofs.Operands
import FiberMachine.Proofs.Runs
import FiberMachine.Proofs.Slicing

/-!
# Strings in programs

To a program a string is a list of bytes: adding two strings puts one list behind the other, an index or a part is one of the list, and
comparing strings compares the lists byte by byte. Nothing depends on whether the bytes are the encoding of a text, so a string can be cut
anywhere and put together again.
-/

namespace FiberMachine

open Heap

/-! ### The order of bytes -/

/-- Comparing lists of bytes puts them in lexicographic order. -/
theorem compare_bytes_lt {bs cs : List UInt8} : compare bs cs = .lt ↔ bs < cs := by
  induction bs generalizing cs with
  | nil => cases cs <;> simp
  | cons b bs ih =>
    cases cs with
    | nil => simp
    | cons c cs =>
      rw [List.compare_cons_cons, List.cons_lt_cons_iff, Ordering.then_eq_lt, ih, Std.compare_eq_lt, Std.compare_eq_iff_eq]

theorem compare_bytes_gt {bs cs : List UInt8} : compare bs cs = .gt ↔ cs < bs := by
  rw [Std.OrientedCmp.gt_iff_lt, compare_bytes_lt]

/-- What a comparison of two strings says about their bytes. -/
def BinaryOp.decides? (op : BinaryOp) (bs cs : List UInt8) : Option Bool :=
  match op with
  | .eq => some (bs = cs)
  | .ne => some (bs ≠ cs)
  | .lt => some (bs < cs)
  | .le => some (bs ≤ cs)
  | .gt => some (cs < bs)
  | .ge => some (cs ≤ bs)
  | _ => none

theorem BinaryOp.holds_compare (op : BinaryOp) (bs cs : List UInt8) : op.holds? (compare bs cs) = op.decides? bs cs := by
  have lt := @compare_bytes_lt bs cs
  have gt := @compare_bytes_gt bs cs
  have eq : compare bs cs = .eq ↔ bs = cs := Std.compare_eq_iff_eq
  have le : bs ≤ cs ↔ ¬cs < bs := Iff.rfl
  have ge : cs ≤ bs ↔ ¬bs < cs := Iff.rfl
  cases op <;> simp only [BinaryOp.holds?, BinaryOp.decides?, le, ge, ← lt, ← gt, ← eq, ne_eq] <;> cases compare bs cs <;> rfl

variable {h h' : Heap} {m m' : Machine} {a c f i k n pc s t v x y : Nat} {xs : List Nat} {bs cs : List UInt8} {op : BinaryOp}

/-! ### Strings in the heap -/

namespace Heap

theorem HasBytes.bytes_eq (text : HasBytes bs h a) (tidy : h.Tidy) : Text.bytes a h = .ok bs := by
  obtain ⟨d, text⟩ := text
  exact text.bytes_eq tidy

theorem HasBytes.length_eq (text : HasBytes bs h a) (tidy : h.Tidy) : Text.length a h = .ok bs.length := by
  obtain ⟨d, text⟩ := text
  exact text.length_eq tidy

theorem HasBytes.tag_eq (text : HasBytes bs h a) (tidy : h.Tidy) : Heap.tag a h = .ok .string := by
  obtain ⟨d, text⟩ := text
  exact tidy.sound.tag_eq text.is

/-- A new string has its bytes, if there is memory for it. -/
theorem Tidy.makeBytes (tidy : h.Tidy) (bs : List UInt8) : Delivers (Text.ofBytes bs) h [] (HasBytes bs) := by
  rcases tidy.makeText bs with full | ⟨r, d, h', run, e, text⟩
  · exact .inl full
  · exact .inr ⟨r, h', _, run, e, text.is.allocated, d, text⟩

/-- A new number or truth value. -/
theorem Tidy.makeScalar {u : Tag} (tidy : h.Tidy) (layout : u.layout = .fields []) (w : Word) :
    Delivers (Scalar.box u w) h [] fun h' r => h'.IsBox r u w := by
  rcases tidy.makeBox layout w with full | ⟨r, h', run, e, box⟩
  · exact .inl full
  · exact .inr ⟨r, h', _, run, e, box.is.allocated, box⟩

end Heap

namespace Machine

theorem concat_eq (tidy : h.Tidy) (left : HasBytes bs h s) (right : HasBytes cs h t) : Text.concat s t h = Text.ofBytes (bs ++ cs) h := by
  simp only [Text.concat, HeapM.run_bind, HeapM.run_lift, left.bytes_eq tidy, right.bytes_eq tidy]

/-- A part of a string, if the bounds are those of one. -/
theorem substring_eq (tidy : h.Tidy) (text : HasBytes bs h s) (low high : Option Int) :
    substring s low high h =
      if Slice.Bounds (low.getD 0) (high.getD bs.length) bs.length then
        Text.ofBytes ((bs.take (high.getD bs.length).toNat).drop (low.getD 0).toNat) h
      else .error (.error (Slice.boundsError (low.getD 0) (high.getD bs.length) bs.length)) h := by
  by_cases bounds : Slice.Bounds (low.getD 0) (high.getD bs.length) bs.length
  · simp only [substring, HeapM.run_bind, HeapM.run_lift, text.bytes_eq tidy, Slice.checkBounds_eq, if_pos bounds]
  · simp only [substring, HeapM.run_bind, HeapM.run_lift, text.bytes_eq tidy, Slice.checkBounds_eq, if_neg bounds]

/-! ### Instructions on strings -/

/-- Two operands are taken. -/
theorem popTwo_eq (works : m.heap.Works c (xs ++ [s, t])) : ∃ h', h'.Works c xs ∧ Proceeds c xs m.heap h' ∧
    (∀ P, Portable P → P m.heap s → P h' s) ∧ (∀ P, Portable P → P m.heap t → P h' t) ∧
    ∀ {β : Type} (next : Addr → Addr → MachineM β),
      (pop c >>= fun y => pop c >>= fun x => next x y) m = next s t { m with heap := h' } := by
  have works : m.heap.Works c (xs ++ [s] ++ [t]) := by simpa using works
  obtain ⟨h₁, run₁, works₁, retains₁, root₁, -⟩ := pop_eq works
  obtain ⟨h₂, run₂, works₂, retains₂, -, -⟩ := pop_eq (m := { m with heap := h₁ }) works₁
  refine ⟨h₂, works₂, ?_, fun P portable here => ?_, fun P portable here => ?_, fun next => ?_⟩
  · have below : m.heap.Works c (xs ++ ([s] ++ [t])) := by rwa [← List.append_assoc]
    exact (retains₁.proceeds below).trans (retains₂.proceeds works₁)
  · exact portable works₁.tidy retains₂ (works₁.operand (by simp)) (portable works.tidy retains₁ (works.operand (by simp)) here)
  · exact portable works₁.tidy retains₂ (.root root₁) (portable works.tidy retains₁ (works.operand (by simp)) here)
  · rw [run_bind, run₁]
    exact (run_bind ..).trans (by rw [run₂])

theorem applyBinary_add (tidy : m.heap.Tidy) (left : HasBytes bs m.heap s) (right : HasBytes cs m.heap t) :
    applyBinary .add s t m = (liftM (Text.ofBytes (bs ++ cs)) : MachineM Addr) m := by
  simp only [applyBinary, run_bind, run_reader, left.tag_eq tidy, right.tag_eq tidy, if_true, run_heap, concat_eq tidy left right]

theorem applyBinary_compare {b : Bool} (tidy : m.heap.Tidy) (left : HasBytes bs m.heap s) (right : HasBytes cs m.heap t)
    (decides : op.decides? bs cs = some b) : applyBinary op s t m = (liftM (Scalar.newBool b) : MachineM Addr) m := by
  have other : op ≠ .add := by
    rintro rfl
    cases decides
  rw [← op.holds_compare] at decides
  simp only [applyBinary, run_bind, run_reader, left.tag_eq tidy, right.tag_eq tidy, other, if_false, left.bytes_eq tidy,
    right.bytes_eq tidy, comparison, decides]
  rfl

/-- What an operator makes of two operands replaces them. -/
theorem binary_yields {P : Heap → Nat → Prop} {make : HeapM Nat} (works : m.heap.Works c (xs ++ [s, t])) (left : HasBytes bs m.heap s)
    (right : HasBytes cs m.heap t) (portable : Portable P)
    (applied : ∀ m' : Machine, m'.heap.Tidy → HasBytes bs m'.heap s → HasBytes cs m'.heap t →
      applyBinary op s t m' = (liftM make : MachineM Addr) m')
    (made : ∀ h : Heap, h.Tidy → Delivers make h [] P) : m.Yields c xs (execute c pc (.binary op)) .proceed P := by
  obtain ⟨h', works', proceeds, first, second, run⟩ := popTwo_eq works
  have run := run fun x y => applyBinary op x y >>= push c
  have eq : (applyBinary op s t >>= push c) { m with heap := h' } = load c make { m with heap := h' } := by
    rw [load, run_bind, run_bind, applied _ works'.tidy (first _ portable_hasBytes left) (second _ portable_hasBytes right)]
  exact Yields.execute portable (.proceeding (.of_eq (run.trans eq) proceeds (.load works' portable (made h' works'.tidy))))

theorem add_yields (works : m.heap.Works c (xs ++ [s, t])) (left : HasBytes bs m.heap s) (right : HasBytes cs m.heap t) :
    m.Yields c xs (execute c pc (.binary .add)) .proceed (HasBytes (bs ++ cs)) :=
  binary_yields works left right portable_hasBytes (fun _ => applyBinary_add) fun _ tidy => tidy.makeBytes _

theorem compare_yields {b : Bool} (works : m.heap.Works c (xs ++ [s, t])) (left : HasBytes bs m.heap s) (right : HasBytes cs m.heap t)
    (decides : op.decides? bs cs = some b) :
    m.Yields c xs (execute c pc (.binary op)) .proceed fun h r => h.IsBox r .bool b.toUInt64 :=
  binary_yields works left right (portable_isBox rfl) (fun _ tidy left right => applyBinary_compare tidy left right decides)
    fun _ tidy => tidy.makeScalar rfl _

/-- A string is taken. -/
theorem popText_eq (works : m.heap.Works c (xs ++ [s])) (text : HasBytes bs m.heap s) : ∃ h', pop c m = .ok s { m with heap := h' } ∧
    h'.Works c xs ∧ Retains m.heap [] h' ∧ HasBytes bs h' s := by
  obtain ⟨h', run, works', retains, -, -⟩ := pop_eq works
  exact ⟨h', run, works', retains, portable_hasBytes works.tidy retains (works.operand (by simp)) text⟩

theorem execIndex_eq {index : Int64} (works : m.heap.Works c (xs ++ [s] ++ [i])) (text : HasBytes bs m.heap s)
    (box : m.heap.IsBox i .int index.toUInt64) : ∃ h', h'.Works c xs ∧ Proceeds c xs m.heap h' ∧ HasBytes bs h' s ∧
      execIndex c m = ((liftM (Text.get s index.toInt) : MachineM UInt8) >>= fun byte => load c (Scalar.newInt (Int64.ofNat byte.toNat)))
        { m with heap := h' } := by
  obtain ⟨h₁, run₁, works₁, retains₁, -⟩ := popInt_eq works box
  have text₁ := portable_hasBytes works.tidy retains₁ (works.operand (by simp)) text
  obtain ⟨h₂, run₂, works₂, retains₂, text₂⟩ := popText_eq (m := { m with heap := h₁ }) works₁ text₁
  have below : m.heap.Works c (xs ++ ([s] ++ [i])) := by rwa [← List.append_assoc]
  refine ⟨h₂, works₂, (retains₁.proceeds below).trans (retains₂.proceeds works₁), text₂, ?_⟩
  simp only [execIndex, run_bind, run₁, run₂, run_reader, text₂.tag_eq works₂.tidy]

/-- An index within the string answers the byte there. -/
theorem index_yields {index : Int64} {b : UInt8} (works : m.heap.Works c (xs ++ [s] ++ [i])) (text : HasBytes bs m.heap s)
    (box : m.heap.IsBox i .int index.toUInt64) (within : 0 ≤ index.toInt) (found : bs[index.toInt.toNat]? = some b) :
    m.Yields c xs (execute c pc .index) .proceed fun h r => h.IsBox r .int (Int64.ofNat b.toNat).toUInt64 := by
  obtain ⟨h', works', proceeds, text', run⟩ := execIndex_eq works text box
  obtain ⟨d, text'⟩ := text'
  obtain ⟨small, here⟩ := List.getElem?_eq_some_iff.mp found
  have get : Text.get s index.toInt h' = .ok b := by
    rw [text'.get_eq works'.tidy, if_neg (by omega), List.getD_eq_getElem?_getD, found]
    rfl
  have eq : execIndex c m = load c (Scalar.newInt (Int64.ofNat b.toNat)) { m with heap := h' } := by
    rw [run, run_bind, run_reader]
    simp only [get]
  exact Yields.execute (portable_isBox rfl)
    (.proceeding (.of_eq eq proceeds (.load works' (portable_isBox rfl) (works'.tidy.makeScalar rfl _))))

/-- Any other index is out of range. -/
theorem index_refuses {index : Int64} (works : m.heap.Works c (xs ++ [s] ++ [i])) (text : HasBytes bs m.heap s)
    (box : m.heap.IsBox i .int index.toUInt64) (outside : index.toInt < 0 ∨ (bs.length : Int) ≤ index.toInt) :
    m.Refuses (execute c pc .index) (.indexOutOfRange index.toInt bs.length) := by
  obtain ⟨h', works', -, text', run⟩ := execIndex_eq works text box
  obtain ⟨d, text'⟩ := text'
  have get := text'.get_eq works'.tidy index.toInt
  rw [if_pos outside] at get
  refine Refuses.execute (.proceeding ⟨{ m with heap := h' }, ?_⟩)
  rw [run, run_bind, run_reader]
  simp only [get]
  rfl

/-- The length of a string is the number of its bytes. -/
theorem len_yields (works : m.heap.Works c (xs ++ [s])) (text : HasBytes bs m.heap s) :
    m.Yields c xs (execute c pc .len) .proceed fun h r => h.IsBox r .int (Int64.ofNat bs.length).toUInt64 := by
  obtain ⟨h', run, works', retains, text'⟩ := popText_eq works text
  have eq : execLen c m = load c (Scalar.newInt (Int64.ofNat bs.length)) { m with heap := h' } := by
    simp only [execLen, run_bind, run, run_reader, text'.tag_eq works'.tidy, text'.length_eq works'.tidy]
  exact Yields.execute (portable_isBox rfl)
    (.proceeding (.of_eq eq (retains.proceeds works) (.load works' (portable_isBox rfl) (works'.tidy.makeScalar rfl _))))

/-! ### Parts of strings -/

/-- An operand for a bound, if there is one. -/
def boundOperand (bound : Option (Addr × Int64)) : List Addr := (bound.map Prod.fst).toList

/-- The operand is an int with the bound. -/
def IsBound (h : Heap) (bound : Option (Addr × Int64)) : Prop := ∀ b ∈ bound, h.IsBox b.1 .int b.2.toUInt64

/-- What the bound is. -/
def boundValue (bound : Option (Addr × Int64)) : Option Int := bound.map fun b => b.2.toInt

/-- A bound is taken if it is given. -/
theorem popBound_eq {bound : Option (Addr × Int64)} (works : m.heap.Works c (xs ++ boundOperand bound)) (box : IsBound m.heap bound) :
    ∃ h', h'.Works c xs ∧ Proceeds c xs m.heap h' ∧ (∀ P, Portable P → ∀ x ∈ xs, P m.heap x → P h' x) ∧
      ∀ {β : Type} (next : Option Int64 → MachineM β),
        (if bound.isSome then some <$> popInt c >>= next else pure none >>= next) m = next (bound.map Prod.snd) { m with heap := h' } := by
  cases bound with
  | none => exact ⟨m.heap, by simpa [boundOperand] using works, .refl, fun _ _ _ _ here => here, fun next => rfl⟩
  | some b =>
    obtain ⟨h', run, works', retains, -⟩ := popInt_eq works (box b rfl)
    refine ⟨h', works', retains.proceeds works, fun P portable x hx => portable works.tidy retains (works.operand ?_), fun next => ?_⟩
    · exact List.mem_append_left _ hx
    · simp only [Option.isSome, if_true, map_eq_pure_bind, bind_assoc, pure_bind, run_bind, run]
      rfl

theorem execSlice_eq {low high : Option (Addr × Int64)} (works : m.heap.Works c (xs ++ [s] ++ boundOperand low ++ boundOperand high))
    (text : HasBytes bs m.heap s) (hlow : IsBound m.heap low) (hhigh : IsBound m.heap high) :
    ∃ h', h'.Works c xs ∧ Proceeds c xs m.heap h' ∧ HasBytes bs h' s ∧
      execSlice c low.isSome high.isSome m = load c (substring s (boundValue low) (boundValue high)) { m with heap := h' } := by
  obtain ⟨h₁, works₁, proceeds₁, carried₁, run₁⟩ := popBound_eq works hhigh
  have hlow₁ : IsBound h₁ low := by
    intro b hb
    exact carried₁ _ (portable_isBox rfl) b.1 (by simp [boundOperand, Option.mem_def.mp hb]) (hlow b hb)
  have text₁ := carried₁ _ portable_hasBytes s (by simp) text
  obtain ⟨h₂, works₂, proceeds₂, carried₂, run₂⟩ := popBound_eq (m := { m with heap := h₁ }) works₁ hlow₁
  have text₂ := carried₂ _ portable_hasBytes s (by simp) text₁
  obtain ⟨h₃, run₃, works₃, retains₃, text₃⟩ := popText_eq (m := { m with heap := h₂ }) works₂ text₂
  refine ⟨h₃, works₃, ?_, text₃, ?_⟩
  · exact ((proceeds₁.below (by simp)).trans (proceeds₂.below (by simp))).trans (retains₃.proceeds works₂)
  · refine (run₁ _).trans ((run₂ _).trans ?_)
    simp only [run_bind, run₃, run_reader, text₃.tag_eq works₃.tidy, Option.map_map]
    rfl

section
variable (low high : Option (Addr × Int64)) {lo hi : Int} (works : m.heap.Works c (xs ++ [s] ++ boundOperand low ++ boundOperand high))
  (text : HasBytes bs m.heap s) (hlow : IsBound m.heap low) (hhigh : IsBound m.heap high) (hlo : (boundValue low).getD 0 = lo)
  (hhi : (boundValue high).getD bs.length = hi)
include works text hlow hhigh hlo hhi

/-- A part within the string has the bytes between the bounds. -/
theorem slice_yields (bounds : Slice.Bounds lo hi bs.length) :
    m.Yields c xs (execute c pc (.slice low.isSome high.isSome)) .proceed (HasBytes ((bs.take hi.toNat).drop lo.toNat)) := by
  obtain ⟨h', works', proceeds, text', run⟩ := execSlice_eq works text hlow hhigh
  have cut := substring_eq works'.tidy text' (boundValue low) (boundValue high)
  rw [hlo, hhi, if_pos bounds] at cut
  have made := (works'.tidy.makeBytes ((bs.take hi.toNat).drop lo.toNat)).of_eq cut
  exact Yields.execute portable_hasBytes (.proceeding (.of_eq run proceeds (.load works' portable_hasBytes made)))

/-- Other bounds are out of range. -/
theorem slice_refuses (no : ¬Slice.Bounds lo hi bs.length) :
    m.Refuses (execute c pc (.slice low.isSome high.isSome)) (Slice.boundsError lo hi bs.length) := by
  obtain ⟨h', works', -, text', run⟩ := execSlice_eq works text hlow hhigh
  have cut := substring_eq works'.tidy text' (boundValue low) (boundValue high)
  rw [hlo, hhi, if_neg no] at cut
  refine Refuses.execute (.proceeding ⟨{ m with heap := h' }, ?_⟩)
  rw [run, load, run_bind, run_heap]
  simp only [cut]
  rfl

end

end Machine

/-! ### Variables -/

namespace Heap

/-- The variable in slot `v` of frame `f` of the context at `c` holds the object at `a`. -/
structure Variable (h : Heap) (c f v a : Nat) : Prop where
  registered : c ∈ h.contexts
  is : h.Is c .context 7
  scope : ∃ frames g values, h.IsSeq (h.ref c Context.environmentField) .environment frames ∧ frames[f]? = some g ∧
    h.IsSeq g .frame values ∧ values[v]? = some a

namespace Variable

variable {frames : List Nat} {g : Nat}

theorem lookup_eq (held : h.Variable c f v a) (tidy : h.Tidy) :
    ∃ env, Context.environment c h = .ok env ∧ Scope.lookup env f v h = .ok a := by
  obtain ⟨frames, g, values, env, frame, slots, value⟩ := held.scope
  obtain ⟨hf, -⟩ := List.getElem?_eq_some_iff.mp frame
  obtain ⟨hv, -⟩ := List.getElem?_eq_some_iff.mp value
  have smallFrame : Scope.signed f = f := signed_eq (hf.trans (env.small tidy))
  have smallSlot : Scope.signed v = v := signed_eq (hv.trans (slots.small tidy))
  have first : Sequence.get (h.ref c Context.environmentField) f h = .ok g := by
    rw [env.get_eq tidy, if_neg (by omega), List.getD_eq_getElem?_getD, Int.toNat_natCast, frame]
    rfl
  have second : Sequence.get g v h = .ok a := by
    rw [slots.get_eq tidy, if_neg (by omega), List.getD_eq_getElem?_getD, Int.toNat_natCast, value]
    rfl
  refine ⟨_, tidy.sound.readNat_eq held.is (by decide), ?_⟩
  simp only [Scope.lookup, Scope.frame, Scope.getSlot, smallFrame, smallSlot, HeapReader.run_bind, first, second]

theorem reachable (held : h.Variable c f v a) (tidy : h.Tidy) : h.Reachable a := by
  obtain ⟨frames, g, values, env, frame, slots, value⟩ := held.scope
  have root : h.Reachable c := .start (List.mem_cons_of_mem _ (List.mem_append_left _ held.registered))
  have inside := root.child (tidy.child_field held.is (π := [1, 2, 3, 5]) rfl (i := Context.environmentField) (by decide))
  exact (inside.child (env.child tidy (List.mem_of_getElem? frame))).child (slots.child tidy (List.mem_of_getElem? value))

end Variable

theorem portable_variable : Portable fun h a => h.Variable c f v a := by
  intro h h' rs a tidy retains live held
  obtain ⟨frames, g, values, env, frame, slots, value⟩ := held.scope
  have root : h.Live rs c := .root (List.mem_cons_of_mem _ (List.mem_append_left _ held.registered))
  have inside := root.child (tidy.child_field held.is (π := [1, 2, 3, 5]) rfl (i := Context.environmentField) (by decide))
  have kept : Kept h h' c := retains.kept c root (by simp [held.is.tag]) (by simp [held.is.tag])
  have keptScope := retains.kept _ inside (by simp [env.is.tag]) (by simp [env.is.tag])
  have deeper := inside.child (env.child tidy (List.mem_of_getElem? frame))
  have keptFrame := retains.kept g deeper (by simp [slots.is.tag]) (by simp [slots.is.tag])
  refine ⟨retains.contexts ▸ held.registered, kept.is held.is, frames, g, values, ?_, frame, slots.kept keptFrame, value⟩
  rw [kept.ref (Nat.lt_of_lt_of_le (by decide) held.is.room)]
  exact env.kept keptScope

end Heap

namespace Machine

/-- Execute instructions one after the other, the first one fetched from `pc`. -/
def executeAll (context : Addr) : Nat → List Instruction → MachineM Outcome
  | _, [] => pure .proceed
  | pc, i :: rest => do
    let _ ← execute context pc i
    executeAll context (pc + 1) rest

theorem loadVar_yields {P : Heap → Nat → Prop} (works : m.heap.Works c xs) (held : m.heap.Variable c f v s) (portable : Portable P)
    (here : P m.heap s) : m.Yields c xs (execute c pc (.loadVar f v)) .proceed P := by
  obtain ⟨env, found, value⟩ := held.lookup_eq works.tidy
  have eq : execLoadVar c f v m = push c s m := by simp only [execLoadVar, run_bind, run_reader, found, value]
  have hs := works.tidy.allocated_of_reachable (held.reachable works.tidy)
  exact Yields.execute portable (.proceeding (.of_eq eq .refl (.push works portable hs here)))

theorem loadInt_yields (works : m.heap.Works c xs) (k : Int64) :
    m.Yields c xs (execute c pc (.loadInt k)) .proceed fun h r => h.IsBox r .int k.toUInt64 :=
  .execute (portable_isBox rfl) (.proceeding (.load works (portable_isBox rfl) (works.tidy.makeScalar rfl _)))

variable {ys : List Nat} {is : List Instruction} {P : Heap → Nat → Prop}

/-- A string in a variable is loaded, and then an int. -/
theorem loads_yield {k : Int64} (works : m.heap.Works c xs) (held : m.heap.Variable c f v s) (text : HasBytes bs m.heap s)
    (below : ys <+: xs)
    (next : ∀ q r (m' : Machine), m'.heap.Works c (xs ++ [q] ++ [r]) → HasBytes bs m'.heap q → m'.heap.IsBox r .int k.toUInt64 →
      Proceeds c xs m.heap m'.heap → m'.Yields c ys (executeAll c (pc + 2) is) .proceed P) :
    m.Yields c ys (executeAll c pc (.loadVar f v :: .loadInt k :: is)) .proceed P := by
  refine (loadVar_yields works held portable_hasBytes text).bind below fun q m₁ works₁ text₁ proceeds₁ => ?_
  refine (loadInt_yields works₁ k).bind (below.trans (List.prefix_append _ _)) fun r m₂ works₂ box proceeds₂ => ?_
  have text₂ := portable_hasBytes.operand (by simp) proceeds₂ text₁
  exact next q r m₂ works₂ text₂ box (proceeds₁.trans (proceeds₂.below (List.prefix_append _ _)))

/-- A string is cut, at any place, and put together again. -/
theorem rejoin_yields {k : Int64} (works : m.heap.Works c xs) (held : m.heap.Variable c f v s) (text : HasBytes bs m.heap s)
    (nonneg : 0 ≤ k.toInt) (within : k.toInt ≤ bs.length) :
    m.Yields c xs (executeAll c pc [.loadVar f v, .loadInt k, .slice false true, .loadVar f v, .loadInt k, .slice true false, .binary .add])
      .proceed (HasBytes bs) := by
  refine loads_yield works held text (List.prefix_refl _) fun q r m₁ works₁ text₁ box₁ proceeds₁ => ?_
  have at₁ : m₁.heap.Works c (xs ++ [q] ++ boundOperand none ++ boundOperand (some (r, k))) := by simpa [boundOperand] using works₁
  refine (slice_yields none (some (r, k)) at₁ text₁ (by simp [IsBound]) (by simpa [IsBound] using box₁) rfl rfl
    ⟨le_rfl, nonneg, within⟩).bind (List.prefix_refl _) fun front m₂ works₂ hfront proceeds₂ => ?_
  obtain ⟨held₂, text₂⟩ := (portable_variable.and portable_hasBytes).proceeds (fun _ tidy here => here.1.reachable tidy)
    (proceeds₁.trans proceeds₂) ⟨held, text⟩
  refine loads_yield works₂ held₂ text₂ (List.prefix_append _ _) fun q' r' m₃ works₃ text₃ box₃ proceeds₃ => ?_
  have at₃ : m₃.heap.Works c (xs ++ [front] ++ [q'] ++ boundOperand (some (r', k)) ++ boundOperand none) := by
    simpa [boundOperand] using works₃
  refine (slice_yields (some (r', k)) none at₃ text₃ (by simpa [IsBound] using box₃) (by simp [IsBound]) rfl rfl
    ⟨nonneg, within, le_rfl⟩).bind (List.prefix_append _ _) fun back m₄ works₄ hback proceeds₄ => ?_
  have hfront₄ := portable_hasBytes.operand (by simp) (proceeds₃.trans proceeds₄) hfront
  refine (add_yields (by simpa using works₄) hfront₄ hback).bind (List.prefix_refl _) fun joined m₅ works₅ hjoined _ => .done works₅ ?_
  have whole : (bs.take k.toInt.toNat).drop (0 : Int).toNat ++ (bs.take (bs.length : Int).toNat).drop k.toInt.toNat = bs := by
    simp
  exact whole ▸ hjoined

end Machine

/-! ### In every state of a run -/

section
open Ideal
variable {w : World} {s : Store} {code : Array Instruction} {config : Config} {journal : Journal} {history : List Entry} {x : Execution}

theorem Rep.hasBytes (rep : Rep w s h) (typed : s.Typed) (holds : h.Holds a .string) : ∃ bs, HasBytes bs h a := by
  obtain ⟨r, o, home, ho, tag, has⟩ := rep.object_at holds (by decide)
  obtain ⟨bs, found⟩ := typed.canonical ⟨o, ho, tag⟩
  cases ho.symm.trans found
  obtain ⟨d, text, -⟩ := has
  exact ⟨bs, d, text⟩

theorem Rep.works (rep : Rep w s h) (typed : s.Typed) (registered : c ∈ h.contexts) :
    ∃ xs, Context.operands c h = .ok xs ∧ h.Works c xs := by
  obtain ⟨r, known, home⟩ := related_left rep.contexts registered
  obtain ⟨f, found⟩ := typed.canonical (typed.contexts r known)
  have has : w.HasFiber h r c f := rep.has home found
  obtain ⟨d, xs, stack, -⟩ := has.operands
  obtain ⟨ys, read, -⟩ := rep.operands_eq home found
  refine ⟨xs, ?_, rep.tidy, registered, has.is, d, stack⟩
  simp only [Context.operands, HeapReader.run_bind, rep.operandStack has, stack.items_eq rep.tidy]

theorem Run.hasBytes (run : Run code config journal history x) (holds : x.machine.heap.Holds a .string) :
    ∃ bs, Text.bytes a x.machine.heap = .ok bs ∧ HasBytes bs x.machine.heap a := by
  obtain ⟨w, t, log, followed⟩ := run.followed
  obtain ⟨bs, text⟩ := followed.sim.machine.rep.hasBytes followed.steady.linked.typed holds
  exact ⟨bs, text.bytes_eq followed.sim.machine.rep.tidy, text⟩

theorem Run.works (run : Run code config journal history x) (registered : c ∈ x.machine.heap.contexts) :
    ∃ xs, Context.operands c x.machine.heap = .ok xs ∧ x.machine.heap.Works c xs := by
  obtain ⟨w, t, log, followed⟩ := run.followed
  exact followed.sim.machine.rep.works followed.steady.linked.typed registered

end

theorem Heap.IsSeq.single {u : Tag} (is : h.Is a u 2) (counted : u.layout = .counted) (length : h.ref a 0 = 1) (item : h.ref a 1 = x) :
    h.IsSeq a u [x] := by
  refine ⟨is, counted, length, fun i hi => ?_⟩
  obtain rfl : i = 0 := Nat.lt_one_iff.mp hi
  exact item

namespace Machine

/-- Strings are lists of bytes. A new one has the bytes it was made of; in every state of a run each string in use has some bytes, and each
context has operands that its instructions can take. Whatever instruction is executed, if there is memory for the result: a sum has the
bytes of one string and then those of the other; the comparisons decide the lexicographic order; the length is the number of bytes; an
index is answered by the byte there if it is within the string, and a part within the bounds by its bytes, and both are out of range
otherwise; and the two parts of a string that is cut anywhere add up to it. -/
theorem strings_are_bytes :
    (∀ {h : Heap}, h.Tidy → ∀ bs, NoMemory (Text.ofBytes bs) h ∨ ∃ a h', Text.ofBytes bs h = .ok a h' ∧ HasBytes bs h' a ∧
      Text.bytes a h' = .ok bs ∧ Text.length a h' = .ok bs.length) ∧
    (∀ {code config journal history x}, Run code config journal history x →
      (∀ c ∈ x.machine.heap.contexts, ∃ xs, Context.operands c x.machine.heap = .ok xs ∧ x.machine.heap.Works c xs) ∧
      ∀ a, x.machine.heap.Holds a .string → ∃ bs, Text.bytes a x.machine.heap = .ok bs ∧ HasBytes bs x.machine.heap a) ∧
    (∀ {m : Machine} {c pc s t : Nat} {xs : List Nat} {bs cs : List UInt8},
      m.heap.Works c (xs ++ [s, t]) → HasBytes bs m.heap s → HasBytes cs m.heap t →
      m.Yields c xs (execute c pc (.binary .add)) .proceed (HasBytes (bs ++ cs)) ∧
      ∀ (op : BinaryOp) (b : Bool), op.decides? bs cs = some b →
        m.Yields c xs (execute c pc (.binary op)) .proceed fun h r => h.IsBox r .bool b.toUInt64) ∧
    (∀ {m : Machine} {c pc s : Nat} {xs : List Nat} {bs : List UInt8}, m.heap.Works c (xs ++ [s]) → HasBytes bs m.heap s →
      m.Yields c xs (execute c pc .len) .proceed fun h r => h.IsBox r .int (Int64.ofNat bs.length).toUInt64) ∧
    (∀ {m : Machine} {c pc s i : Nat} {xs : List Nat} {bs : List UInt8} {k : Int64},
      m.heap.Works c (xs ++ [s] ++ [i]) → HasBytes bs m.heap s → m.heap.IsBox i .int k.toUInt64 →
      (∀ b : UInt8, 0 ≤ k.toInt → bs[k.toInt.toNat]? = some b →
        m.Yields c xs (execute c pc .index) .proceed fun h r => h.IsBox r .int (Int64.ofNat b.toNat).toUInt64) ∧
      (k.toInt < 0 ∨ (bs.length : Int) ≤ k.toInt → m.Refuses (execute c pc .index) (.indexOutOfRange k.toInt bs.length))) ∧
    (∀ {m : Machine} {c pc s : Nat} {xs : List Nat} {bs : List UInt8} {low high : Option (Addr × Int64)} {lo hi : Int},
      m.heap.Works c (xs ++ [s] ++ boundOperand low ++ boundOperand high) → HasBytes bs m.heap s →
      IsBound m.heap low → IsBound m.heap high → (boundValue low).getD 0 = lo → (boundValue high).getD bs.length = hi →
      (Slice.Bounds lo hi bs.length →
        m.Yields c xs (execute c pc (.slice low.isSome high.isSome)) .proceed (HasBytes ((bs.take hi.toNat).drop lo.toNat))) ∧
      (¬Slice.Bounds lo hi bs.length →
        m.Refuses (execute c pc (.slice low.isSome high.isSome)) (Slice.boundsError lo hi bs.length))) ∧
    ∀ {m : Machine} {c pc f v s : Nat} {xs : List Nat} {bs : List UInt8} {k : Int64},
      m.heap.Works c xs → m.heap.Variable c f v s → HasBytes bs m.heap s →
      0 ≤ k.toInt → k.toInt ≤ bs.length →
      m.Yields c xs
        (executeAll c pc [.loadVar f v, .loadInt k, .slice false true, .loadVar f v, .loadInt k, .slice true false, .binary .add]) .proceed
        (HasBytes bs) := by
  refine ⟨fun tidy bs => ?_, fun run => ⟨fun c => run.works, fun a => run.hasBytes⟩, fun works left right => ?_, len_yields,
    fun works text box => ?_, fun works text hlow hhigh hlo hhi => ?_, rejoin_yields⟩
  · rcases tidy.makeBytes bs with full | ⟨a, h', _, made, e, _, text⟩
    · exact .inl full
    · exact .inr ⟨a, h', made, text, text.bytes_eq e.tidy, text.length_eq e.tidy⟩
  · exact ⟨add_yields works left right, fun op b => compare_yields works left right⟩
  · exact ⟨fun b => index_yields works text box, index_refuses works text box⟩
  · exact ⟨slice_yields _ _ works text hlow hhigh hlo hhi, slice_refuses _ _ works text hlow hhigh hlo hhi⟩

/-- Puts a string in a variable, and then on the operand stack with an int, and twice. -/
def cutting : Array Instruction :=
  #[.enterScope ["s"], .loadString "ab", .storeVar 0 0, .loadVar 0 0, .loadInt 1, .pop, .loadVar 0 0, .done]

/-- The string and the operands in a state of the program. -/
theorem cutting_state (test : Heap → Bool) (xs : List Nat) (n : Nat)
    (found : (Execution.start cutting { heapWords := 256 } (.start none)).toOption.any (fun x =>
      (fun h : Heap => decide (32 ∈ h.contexts) && (Context.operands 32 h).toOption == some xs && (h.finds 32 [2, 0, 0] .string &&
        h.along 32 [2, 0, 0] == some 52) && (Text.bytes 52 h).toOption == some [97, 98] && test h) (x.follow n).2.machine.heap) = true) :
    ∃ history x, Run cutting { heapWords := 256 } (.start none) history x ∧ x.machine.heap.Works 32 xs ∧
      x.machine.heap.Holds 52 .string ∧ HasBytes [97, 98] x.machine.heap 52 ∧ test x.machine.heap = true := by
  obtain ⟨history, x, run, found⟩ := Run.of_follow (P := fun _ x => (fun h : Heap => decide (32 ∈ h.contexts) &&
    (Context.operands 32 h).toOption == some xs && (h.finds 32 [2, 0, 0] .string && h.along 32 [2, 0, 0] == some 52) &&
    (Text.bytes 52 h).toOption == some [97, 98] && test h) x.machine.heap) cutting { heapWords := 256 } (.start none) n found
  simp only [Bool.and_eq_true, decide_eq_true_eq, beq_iff_eq] at found
  obtain ⟨⟨⟨⟨registered, operands⟩, finds, along⟩, bytes⟩, passed⟩ := found
  obtain ⟨ys, read, works⟩ := run.works registered
  cases read.symm.trans (toOption_eq operands)
  obtain ⟨b, here, holds⟩ := finds_holds finds
  cases here.symm.trans along
  obtain ⟨bs, read, text⟩ := run.hasBytes holds
  cases read.symm.trans (toOption_eq bytes)
  exact ⟨history, x, run, works, holds, text, passed⟩

/-- The string is made, is in a run, and is added to itself, compared with itself, measured, indexed, cut, and put together again. -/
theorem strings_are_bytes_cutting :
    (∃ a h', Text.ofBytes [97, 255] (built 64 []) = .ok a h' ∧ Text.bytes a h' = .ok [97, 255]) ∧
    (∃ (m : Machine) (c s : Nat), (∃ bs, HasBytes bs m.heap s) ∧
      m.Yields c [] (execute c 7 (.binary .add)) .proceed (HasBytes [97, 98, 97, 98]) ∧
      m.Yields c [] (execute c 7 (.binary .le)) .proceed fun h r => h.IsBox r .bool 1) ∧
    (∃ (m : Machine) (c : Nat), m.Yields c [] (execute c 7 .len) .proceed fun h r => h.IsBox r .int 2) ∧
    (∃ (m : Machine) (c : Nat), (m.Yields c [] (execute c 7 .index) .proceed fun h r => h.IsBox r .int 98) ∧
      m.Yields c [] (execute c 7 (.slice true false)) .proceed (HasBytes [98])) ∧
    ∃ (m : Machine) (c : Nat), m.Yields c []
      (executeAll c 3 [.loadVar 0 0, .loadInt 1, .slice false true, .loadVar 0 0, .loadInt 1, .slice true false, .binary .add]) .proceed
      (HasBytes [97, 98]) := by
  obtain ⟨make, inRun, binary, len, index, slice, rejoin⟩ := strings_are_bytes
  refine ⟨?_, ?_, ?_, ?_, ?_⟩
  · have runs : Passes (fun _ _ => true) (Text.ofBytes [97, 255] (built 64 [])) = true := by decide +kernel
    obtain ⟨a, h', run, -⟩ := passes_iff.mp runs
    have tidy : (built 64 []).Tidy := tidy_built (by decide) (by decide +kernel) (by decide +kernel)
    rcases make tidy [97, 255] with ⟨_, _, full⟩ | ⟨_, _, run', -, bytes, -⟩
    · cases run.symm.trans full
    · cases run.symm.trans run'
      exact ⟨a, h', run, bytes⟩
  · obtain ⟨history, x, run, works, holds, text, -⟩ := cutting_state (fun _ => true) [52, 52] 7 (by decide +kernel)
    obtain ⟨bs, -, some⟩ := (inRun run).2 52 holds
    obtain ⟨add, compare⟩ := binary (show x.machine.heap.Works 32 ([] ++ [52, 52]) from works) text text
    exact ⟨x.machine, 32, 52, ⟨bs, some⟩, add, compare .le true (by decide)⟩
  · obtain ⟨history, x, run, works, holds, text, -⟩ := cutting_state (fun _ => true) [52] 4 (by decide +kernel)
    exact ⟨x.machine, 32, len (show x.machine.heap.Works 32 ([] ++ [52]) from works) text⟩
  · obtain ⟨history, x, run, works, holds, text, box⟩ :=
      cutting_state (fun h => decide (h.Is 50 .int 1) && h.cell 50 0 == 1) [52, 50] 5 (by decide +kernel)
    simp only [Bool.and_eq_true, decide_eq_true_eq, beq_iff_eq] at box
    have box : x.machine.heap.IsBox 50 .int (1 : Int64).toUInt64 := ⟨box.1, box.2⟩
    have operands : x.machine.heap.Works 32 ([] ++ [52] ++ boundOperand (some (50, 1)) ++ boundOperand none) := works
    have low : IsBound x.machine.heap (some (50, 1)) := by simpa [IsBound] using box
    have high : IsBound x.machine.heap none := by simp [IsBound]
    refine ⟨x.machine, 32, ?_, (slice operands text low high rfl rfl).1 (by decide)⟩
    exact (index (show x.machine.heap.Works 32 ([] ++ [52] ++ [50]) from works) text box).1 98 (by decide) rfl
  · obtain ⟨history, x, run, works, holds, text, scope⟩ := cutting_state (fun h => decide (32 ∈ h.contexts ∧ h.Is 32 .context 7 ∧
      h.ref 32 Context.environmentField = 44 ∧ h.Is 44 .environment 2 ∧ h.ref 44 0 = 1 ∧ h.ref 44 1 = 40 ∧ h.Is 40 .frame 2 ∧
      h.ref 40 0 = 1 ∧ h.ref 40 1 = 52)) [] 3 (by decide +kernel)
    obtain ⟨registered, is, field, env, one, first, frame, one', value⟩ := of_decide_eq_true scope
    have scope : x.machine.heap.IsSeq 44 .environment [40] := .single env rfl one first
    have held : x.machine.heap.Variable 32 0 0 52 :=
      ⟨registered, is, [40], 40, [52], field ▸ scope, rfl, .single frame rfl one' value, rfl⟩
    exact ⟨x.machine, 32, rejoin works held text (k := 1) (by decide) (by decide)⟩

end Machine

end FiberMachine
