import FiberMachine.Proofs.Compounds
import FiberMachine.Proofs.Refinement.Collections

/-!
# Closures, methods and contexts

Reading closures, methods and the registers of a context, and changing these registers, follows the ideal
machine.
-/

namespace FiberMachine

open Ideal

variable {w w' : World} {s : Store} {h h' : Heap} {r v c : Ref} {a b i n : Nat} {o : Obj} {f g : Fiber}

/-! ### Closures and methods -/

section

variable {α : Type} {reader : HeapReader α}

theorem Reads.code {Q : Code → α → Prop} (rep : Rep w s h) (ha : w.home r a)
    (next : ∀ x, w.HasCode h a x → ∃ y, reader h = .ok y ∧ Q x y) : Reads s h reader (Ideal.code r) Q := by
  refine .seen rep ha fun o x _ hx has => ?_
  cases o with
  | func _ =>
    cases hx
    exact next x has
  | _ => cases hx

theorem Reads.fiber {Q : Fiber → α → Prop} (rep : Rep w s h) (ha : w.home c a)
    (next : ∀ f, w.HasFiber h c a f → ∃ y, reader h = .ok y ∧ Q f y) : Reads s h reader (Ideal.fiber c) Q := by
  refine .seen rep ha fun o x _ hx has => ?_
  cases o with
  | context _ =>
    cases hx
    exact next x has
  | _ => cases hx

end

theorem Reads.entry (rep : Rep w s h) (ha : w.home r a) :
    Reads s h (Closure.entry a) (Ideal.code r) fun x n => x.entry = n :=
  .code rep ha fun _ has => ⟨_, rep.tidy.sound.readNat_eq has.is (by decide), has.entry.symm⟩

theorem Reads.arity (rep : Rep w s h) (ha : w.home r a) :
    Reads s h (Closure.arity a) (Ideal.code r) fun x n => x.arity = n :=
  .code rep ha fun _ has => ⟨_, rep.tidy.sound.readNat_eq has.is (by decide), has.arity.symm⟩

theorem Reads.captured (rep : Rep w s h) (ha : w.home r a) :
    Reads s h (Closure.environment a) (Ideal.code r) fun x b => w.home x.environment b :=
  .code rep ha fun _ has => ⟨_, rep.tidy.sound.readNat_eq has.is (by decide), has.environment⟩

theorem Reads.declaration (rep : Rep w s h) (ha : w.home r a) :
    Reads s h (Closure.declaration a) (Ideal.code r) fun x n => x.declaration = n :=
  .code rep ha fun _ has => ⟨_, rep.tidy.sound.readNat_eq has.is (by decide), has.declaration.symm⟩

theorem toNat_wrap (n : Nat) : (UInt64.ofNat n).toNat = wrap n := UInt64.toNat_ofNat'

theorem Tracks.newCode (rep : Rep w s h) (entry arity declaration : Nat) (ha : w.home r a) :
    Tracks w s h (Closure.create entry arity a declaration) (Ideal.newCode entry arity r declaration) (Makes w h [a]) := by
  have hd := rep.home_allocated ha
  have same := rep.tidy.sound.toNat_ofNat hd
  refine .fields (ρ := [a]) (t := .func) (n := 4) (π := [2])
    (ω := [(0, UInt64.ofNat entry), (1, UInt64.ofNat arity), (2, UInt64.ofNat a), (3, UInt64.ofNat declaration)])
    rep rfl (by simpa using hd) (rep.tidy.allocateRooted (by simpa using hd) (Tag.fits_fields (π := [2]) rfl (by decide)))
    (by simp [same]) ?_ fun w' b h' stays is cells => ?_
  · simp only [Closure.create, Heap.writes, bind_assoc, pure_bind]
    rfl
  · have env : h'.ref b Closure.environmentField = a := by
      rw [Heap.ref, cells _ (by decide)]
      exact same
    refine ⟨is, ?_, ?_, ?_, ?_⟩
    · rw [Heap.ref, cells _ (by decide)]
      exact toNat_wrap entry
    · rw [Heap.ref, cells _ (by decide)]
      exact toNat_wrap arity
    · rw [env]
      exact stays r a ha (.extra (by simp))
    · rw [Heap.ref, cells _ (by decide)]
      exact toNat_wrap declaration

theorem Reads.receiver (rep : Rep w s h) (ha : w.home r a) :
    Reads s h (Method.receiver a) (Ideal.methodOf r) fun x b => w.home x.1 b := by
  refine .seen rep ha fun o x _ hx has => ?_
  cases o with
  | method receiver name =>
    cases hx
    exact ⟨_, rep.tidy.sound.readNat_eq has.1 (by decide), has.2.1⟩
  | _ => cases hx

theorem Reads.methodName (rep : Rep w s h) (ha : w.home r a) :
    Reads s h (Method.name a) (Ideal.methodOf r) fun x b => w.home x.2 b := by
  refine .seen rep ha fun o x _ hx has => ?_
  cases o with
  | method receiver name =>
    cases hx
    exact ⟨_, rep.tidy.sound.readNat_eq has.1 (by decide), has.2.2⟩
  | _ => cases hx

theorem Tracks.newMethod (rep : Rep w s h) (ha : w.home r a) (name : String) :
    Tracks w s h (Method.create a name) (Ideal.newMethod r name) fun w' r' a' => w'.home r' a' := by
  refine (Tracks.withRoots rep (.cons ha .nil) fun rep => .newText rep _).bind ?_
  rintro q s' b h' w' rep' _ ⟨⟨hq, _⟩, stays⟩
  have hr := stays r (by simp) a ha
  have ha' := rep'.home_allocated hr
  have hb' := rep'.home_allocated hq
  have good : ∀ x ∈ [a, b], h'.Allocated x := by simp [ha', hb']
  have same := rep'.tidy.sound.toNat_ofNat ha'
  have same' := rep'.tidy.sound.toNat_ofNat hb'
  refine Tracks.weaken (.fields (ρ := [a, b]) (t := .method) (n := 2) (π := [0, 1])
    (ω := [(0, UInt64.ofNat a), (1, UInt64.ofNat b)]) rep' rfl good
    (rep'.tidy.allocateRooted good (Tag.fits_fields (π := [0, 1]) rfl (by decide)))
    (by simp [same, same']) ?_ fun w' d h' stays is cells => ?_) fun _ _ _ made => made.1
  · simp only [Heap.writes, bind_assoc, pure_bind]
    rfl
  · refine ⟨is, ?_, ?_⟩
    · have : h'.ref d Method.receiverField = a := by
        rw [Heap.ref, cells _ (by decide)]
        exact same
      rw [this]
      exact stays r a hr (.extra (by simp))
    · have : h'.ref d Method.nameField = b := by
        rw [Heap.ref, cells _ (by decide)]
        exact same'
      rw [this]
      exact stays q b hq (.extra (by simp))

/-! ### Registers -/

theorem Reads.pc (rep : Rep w s h) (ha : w.home c a) : Reads s h (Context.pc a) (Ideal.fiber c) fun f n => f.pc = n :=
  .fiber rep ha fun _ has => ⟨_, rep.tidy.sound.readNat_eq has.is (by decide), has.pc.symm⟩

theorem Reads.contextId (rep : Rep w s h) (ha : w.home c a) :
    Reads s h (Context.id a) (Ideal.fiber c) fun f n => f.id = n :=
  .fiber rep ha fun _ has => ⟨_, rep.tidy.sound.readNat_eq has.is (by decide), has.id.symm⟩

theorem Reads.environment (rep : Rep w s h) (ha : w.home c a) :
    Reads s h (Context.environment a) (Ideal.fiber c) fun f b => w.home f.environment b :=
  .fiber rep ha fun _ has => ⟨_, rep.tidy.sound.readNat_eq has.is (by decide), has.environment⟩

theorem Reads.isBlocked (rep : Rep w s h) (ha : w.home c a) :
    Reads s h (Context.isBlocked a) (Ideal.fiber c) fun f b => f.blocked = b := by
  refine .fiber rep ha fun f has => ⟨f.blocked, ?_, rfl⟩
  have word : (f.blocked.toUInt64 != 0) = f.blocked := by cases f.blocked <;> rfl
  simp only [Context.isBlocked, HeapReader.run_bind, rep.tidy.sound.read_eq has.is (i := 4) (by decide),
    show Context.blockedField = 4 from rfl, HeapReader.run_pure]
  rw [show h.cell a 4 = _ from has.blocked, word]

/-- The operand stack is read. -/
theorem Rep.operandStack (rep : Rep w s h) (has : w.HasFiber h c a f) :
    Context.operandStack a h = .ok (h.ref a Context.operandsField) := rep.tidy.sound.readNat_eq has.is (by decide)

theorem Rep.returnStack (rep : Rep w s h) (has : w.HasFiber h c a f) :
    Context.returnStack a h = .ok (h.ref a Context.returnsField) := rep.tidy.sound.readNat_eq has.is (by decide)

theorem Rep.waitList (rep : Rep w s h) (has : w.HasFiber h c a f) :
    Context.waitList a h = .ok (h.ref a Context.waitsField) := rep.tidy.sound.readNat_eq has.is (by decide)

theorem Reads.operands (rep : Rep w s h) (ha : w.home c a) :
    Reads s h (Context.operands a) (Ideal.fiber c) fun f as => List.Forall₂ w.home f.operands as := by
  refine .fiber rep ha fun f has => ?_
  obtain ⟨d, as, is, _, _, homes, _⟩ := has.operands
  refine ⟨as, ?_, homes⟩
  simp only [Context.operands, HeapReader.run_bind, rep.operandStack has, is.items_eq rep.tidy]

theorem Reads.returnsLength (rep : Rep w s h) (ha : w.home c a) :
    Reads s h (do Stack.length (← Context.returnStack a)) (Ideal.fiber c) fun f n => f.returns.length = n := by
  refine .fiber rep ha fun f has => ?_
  obtain ⟨d, as, is, _, _, homes, _⟩ := has.returns
  refine ⟨as.length, ?_, homes.length_eq⟩
  simp only [HeapReader.run_bind, rep.returnStack has, is.length_eq rep.tidy]

/-- The last items of corresponding lists. -/
theorem last_home {P : Ref → Nat → Prop} {xs : List Ref} {as : List Nat} (homes : List.Forall₂ P xs as) :
    (xs = [] ∧ as = []) ∨
      ∃ ys y bs b, xs = ys ++ [y] ∧ as = bs ++ [b] ∧ List.Forall₂ P ys bs ∧ P y b := by
  rcases List.eq_nil_or_concat as with rfl | ⟨bs, b, rfl⟩
  · cases homes
    exact .inl ⟨rfl, rfl⟩
  · right
    rw [List.concat_eq_append] at homes ⊢
    have front := List.forall₂_take_append _ _ _ homes
    have back := List.forall₂_drop_append _ _ _ homes
    generalize eq : xs.drop bs.length = rest at back
    cases back with
    | cons hy none =>
      rename_i y _
      cases none
      refine ⟨xs.take bs.length, y, bs, b, ?_, rfl, front, hy⟩
      rw [← eq, List.take_append_drop]

theorem Reads.peekOperand (rep : Rep w s h) (ha : w.home c a) :
    Reads s h (Context.peekOperand a) (Ideal.peekOperand c) w.home := by
  refine .look rep ha fun o f _ hx has => ?_
  cases o with
  | context f =>
    cases hx
    obtain ⟨d, as, is, _, _, homes, _⟩ := has.operands
    have run : Context.peekOperand a h = Stack.peek (h.ref a Context.operandsField) h := by
      simp only [Context.peekOperand, HeapReader.run_bind, rep.operandStack has]
    rw [is.peek_eq rep.tidy] at run
    rcases last_home homes with ⟨none, rfl⟩ | ⟨ys, y, bs, b, some, rfl, _, hy⟩
    · rw [none]
      refine .congr (k := Heap.reject .stackUnderflow) (l := reject .stackUnderflow) (.error rfl) run rfl
    · rw [some]
      simp only [List.getLast?_append, List.getLast?_singleton, Option.some_or] at run ⊢
      exact .found run rfl hy
  | _ => cases hx

/-! ### Changing registers -/

/-- The block of a context is rewritten, and its parts are the same. -/
theorem Rep.rewriteFiber (rep : Rep w s h) (ha : w.home c a) (has : w.HasFiber h c a f)
    (e : Heap.Evolves h h.Allocated h' (· = a) []) (is : h'.Is a .context 7) (pc : h'.ref a Context.pcField = g.pc)
    (environment : w.home g.environment (h'.ref a Context.environmentField))
    (blocked : h'.cell a Context.blockedField = g.blocked.toUInt64) (id : h'.ref a Context.idField = g.id)
    (same : ∀ i ∈ [1, 2, 5], h'.ref a i = h.ref a i)
    (parts : g.operands = f.operands ∧ g.returns = f.returns ∧ g.waits = f.waits) : w.HasFiber h' c a g := by
  have carries : World.Carries w h h.Allocated w :=
    ⟨rep.tidy, .all rep.tidy, fun _ _ ha _ => ha, fun _ _ _ => rfl, fun _ _ _ _ hb _ _ _ => hb⟩
  have kept (k b : Nat) (ne : k ≠ 0) (own : w.owns c k b) (hb : h.Allocated b) : Heap.Kept h h' b :=
    e.kept b hb fun eq => ne (rep.owner c k c 0 b own (eq ▸ ha)).2
  obtain ⟨operands, returns, waits, _⟩ := carries.fiberParts (j := 0) has ha (rep.home_allocated ha) kept
  refine ⟨is, pc, ?_, ?_, environment, blocked, ?_, id⟩
  · rw [show h'.ref a Context.operandsField = _ from same 1 (by decide), parts.1]
    exact operands (by decide)
  · rw [show h'.ref a Context.returnsField = _ from same 2 (by decide), parts.2.1]
    exact returns (by decide)
  · rw [show h'.ref a Context.waitsField = _ from same 5 (by decide), parts.2.2]
    exact waits (by decide)

theorem Tracks.fiber {α β : Type} {m : HeapM α} {l : Fiber → StoreM β} {Q : World → β → α → Prop} (rep : Rep w s h)
    (ha : w.home c a) (next : ∀ f, s.objects[c]? = some (.context f) → w.HasFiber h c a f → Tracks w s h m (l f) Q) :
    Tracks w s h m (Ideal.fiber c >>= l) Q := by
  refine .look rep ha fun o f ho hx has => ?_
  cases o with
  | context _ =>
    cases hx
    exact next f ho has
  | _ => cases hx

theorem Tracks.setPc (rep : Rep w s h) (ha : w.home c a) (pc : Nat) :
    Tracks w s h (Context.setPc a pc) (Ideal.setPc c pc) fun w' _ _ => w' = w := by
  refine .fiber rep ha fun f _ has => ?_
  obtain ⟨h', run, e, is, cells⟩ := rep.tidy.write (w := UInt64.ofNat pc) has.is (π := [1, 2, 3, 5]) rfl
    (i := Context.pcField) (by decide) (fun no => absurd no (by decide))
  have refs (j : Nat) (ne : j ≠ Context.pcField) : h'.ref a j = h.ref a j := by
    rw [Heap.ref, cells, if_neg ne, Heap.ref]
  refine .mutate (k := 0) (o := .context { f with pc := wrap pc }) rep ha run rfl e (fun b hb => hb ▸ ha) ?_ rfl
  refine rep.rewriteFiber ha has e is ?_ ?_ ?_ ?_ (fun i hi => refs i ?_) ⟨rfl, rfl, rfl⟩
  · rw [Heap.ref, cells, if_pos rfl]
    exact toNat_wrap pc
  · rw [refs _ (by decide)]
    exact has.environment
  · rw [cells, if_neg (by decide)]
    exact has.blocked
  · rw [refs _ (by decide)]
    exact has.id
  · rintro rfl
    exact absurd hi (by decide)

theorem Tracks.setBlocked (rep : Rep w s h) (ha : w.home c a) (blocked : Bool) :
    Tracks w s h (Context.setBlocked a blocked) (Ideal.setBlocked c blocked) fun w' _ _ => w' = w := by
  refine .fiber rep ha fun f _ has => ?_
  obtain ⟨h', run, e, is, cells⟩ := rep.tidy.write (w := blocked.toUInt64) has.is (π := [1, 2, 3, 5]) rfl
    (i := Context.blockedField) (by decide) (fun no => absurd no (by decide))
  have refs (j : Nat) (ne : j ≠ Context.blockedField) : h'.ref a j = h.ref a j := by
    rw [Heap.ref, cells, if_neg ne, Heap.ref]
  refine .mutate (k := 0) (o := .context { f with blocked := blocked }) rep ha run rfl e (fun b hb => hb ▸ ha) ?_ rfl
  refine rep.rewriteFiber ha has e is ?_ ?_ ?_ ?_ (fun i hi => refs i ?_) ⟨rfl, rfl, rfl⟩
  · rw [refs _ (by decide)]
    exact has.pc
  · rw [refs _ (by decide)]
    exact has.environment
  · rw [cells, if_pos rfl]
  · rw [refs _ (by decide)]
    exact has.id
  · rintro rfl
    exact absurd hi (by decide)

theorem Tracks.setEnvironment (rep : Rep w s h) (ha : w.home c a) (hv : w.home v b) :
    Tracks w s h (Context.setEnvironment a b) (Ideal.setEnvironment c v) fun w' _ _ => w' = w := by
  refine .fiber rep ha fun f _ has => ?_
  have hb := rep.home_allocated hv
  have same := rep.tidy.sound.toNat_ofNat hb
  obtain ⟨h', run, e, is, cells⟩ := rep.tidy.write (w := UInt64.ofNat b) has.is (π := [1, 2, 3, 5]) rfl
    (i := Context.environmentField) (by decide) (fun _ => same.symm ▸ hb)
  have refs (j : Nat) (ne : j ≠ Context.environmentField) : h'.ref a j = h.ref a j := by
    rw [Heap.ref, cells, if_neg ne, Heap.ref]
  refine .mutate (k := 0) (o := .context { f with environment := v }) rep ha run rfl e (fun b hb => hb ▸ ha) ?_ rfl
  refine rep.rewriteFiber ha has e is ?_ ?_ ?_ ?_ (fun i hi => refs i ?_) ⟨rfl, rfl, rfl⟩
  · rw [refs _ (by decide)]
    exact has.pc
  · rw [Heap.ref, cells, if_pos rfl, same]
    exact hv
  · rw [cells, if_neg (by decide)]
    exact has.blocked
  · rw [refs _ (by decide)]
    exact has.id
  · rintro rfl
    exact absurd hi (by decide)

/-! ### Stacks and wait-lists -/

namespace World

variable {L : Nat → Prop}

/-- The blocks of `r` outside one role are kept. -/
def KeptBeside (w : World) (h h' : Heap) (L : Nat → Prop) (r : Ref) (j : Nat) : Prop :=
  ∀ k b, k ≠ j → w.owns r k b → L b → Heap.Kept h h' b

namespace HasFiber

theorem keep (has : w.HasFiber h r a f) (main : Heap.Kept h h' a)
    (operands : w'.HasStack h' r 1 (h.ref a Context.operandsField) g.operands)
    (returns : w'.HasStack h' r 2 (h.ref a Context.returnsField) g.returns)
    (waits : w'.HasList h' r 3 (h.ref a Context.waitsField) g.waits)
    (environment : w'.home g.environment (h.ref a Context.environmentField))
    (scalars : g.pc = f.pc ∧ g.blocked = f.blocked ∧ g.id = f.id) : w'.HasFiber h' r a g := by
  have same (i : Nat) (hi : i < 7) : h'.ref a i = h.ref a i := main.ref (Nat.lt_of_lt_of_le hi has.is.room)
  obtain ⟨pc, blocked, id⟩ := scalars
  refine ⟨main.is has.is, ?_, ?_, ?_, ?_, ?_, ?_, ?_⟩
  · rw [same _ (by decide), pc]
    exact has.pc
  · rwa [same _ (by decide)]
  · rwa [same _ (by decide)]
  · rwa [same _ (by decide)]
  · rw [main.cell (Nat.lt_of_lt_of_le (by decide) has.is.room), blocked]
    exact has.blocked
  · rwa [same _ (by decide)]
  · rw [same _ (by decide), id]
    exact has.id

theorem withOperands (has : w.HasFiber h r a f) (hm : w.home r a) (carries : Carries w h L w') (la : L a)
    (kept : w.KeptBeside h h' L r 1) {xs : List Ref} (stack : w'.HasStack h' r 1 (h.ref a Context.operandsField) xs) :
    w'.HasFiber h' r a { f with operands := xs } := by
  obtain ⟨_, returns, waits, env⟩ := carries.fiberParts has hm la kept
  exact has.keep (kept 0 a (by decide) hm la) stack (returns (by decide)) (waits (by decide)) env ⟨rfl, rfl, rfl⟩

theorem withReturns (has : w.HasFiber h r a f) (hm : w.home r a) (carries : Carries w h L w') (la : L a)
    (kept : w.KeptBeside h h' L r 2) {xs : List Ref} (stack : w'.HasStack h' r 2 (h.ref a Context.returnsField) xs) :
    w'.HasFiber h' r a { f with returns := xs } := by
  obtain ⟨operands, _, waits, env⟩ := carries.fiberParts has hm la kept
  exact has.keep (kept 0 a (by decide) hm la) (operands (by decide)) stack (waits (by decide)) env ⟨rfl, rfl, rfl⟩

theorem withWaits (has : w.HasFiber h r a f) (hm : w.home r a) (carries : Carries w h L w') (la : L a)
    (kept : w.KeptBeside h h' L r 3) {xs : List Ref} (list : w'.HasList h' r 3 (h.ref a Context.waitsField) xs) :
    w'.HasFiber h' r a { f with waits := xs } := by
  obtain ⟨operands, returns, _, env⟩ := carries.fiberParts has hm la kept
  exact has.keep (kept 0 a (by decide) hm la) (operands (by decide)) (returns (by decide)) list env ⟨rfl, rfl, rfl⟩

end HasFiber

theorem Carries.all (tidy : h.Tidy) : Carries w h h.Allocated w :=
  ⟨tidy, .all tidy, fun _ _ ha _ => ha, fun _ _ _ => rfl, fun _ _ _ _ hb _ _ _ => hb⟩

end World

theorem Rep.keptBeside {L P : Nat → Prop} {N : List Nat} {j : Nat} (rep : Rep w s h) (e : Heap.Evolves h L h' P N)
    (part : ∀ b, P b → w.owns r j b) : w.KeptBeside h h' L r j :=
  fun k b ne own lb => e.kept b lb fun hp => ne (rep.owner r k r j b own (part b hp)).2

/-- A stack behind the context is popped; `p` puts the other items back. -/
theorem Tracks.popStack {st j : Nat} {xs : List Ref} {p : List Ref → Fiber} (rep : Rep w s h) (ha : w.home c a)
    (stack : w.HasStack h c j st xs)
    (has : ∀ h' ys, w.KeptBeside h h' h.Allocated c j → w.HasStack h' c j st ys → w.HasFiber h' c a (p ys)) :
    Tracks w s h (Stack.pop st) (match xs.getLast? with
      | none => reject .stackUnderflow
      | some value => do
        replace c (.context (p xs.dropLast))
        return value : StoreM Ref) fun w' x y => w' = w ∧ w.home x y := by
  obtain ⟨d, as, is, own, own', homes, start⟩ := stack
  rcases last_home homes with ⟨rfl, rfl⟩ | ⟨ys, y, bs, b, rfl, rfl, rest, hy⟩
  · unfold Tracks Follows
    rw [is.pop_nil rep.tidy]
    exact .error rfl trivial
  · obtain ⟨h', run, e, is'⟩ := is.pop rep.tidy
    have part : ∀ b, b = st ∨ b = d → w.owns c j b := by
      rintro b (rfl | rfl)
      · exact own
      · exact own'
    simp only [List.getLast?_append, List.getLast?_singleton, Option.some_or, List.dropLast_concat]
    exact .mutate (o := .context (p ys)) rep ha run rfl e part
      (has h' ys (rep.keptBeside e part) ⟨d, bs, is', own, own', rest, start⟩) ⟨rfl, hy⟩

theorem Tracks.popOperand (rep : Rep w s h) (ha : w.home c a) :
    Tracks w s h (Context.popOperand a) (Ideal.popOperand c) fun w' x y => w' = w ∧ w.home x y := by
  refine .fiber rep ha fun f _ has => .reading (rep.operandStack has) ?_
  exact .popStack (p := fun xs => { f with operands := xs }) rep ha has.operands fun _ _ kept =>
    has.withOperands ha (.all rep.tidy) (rep.home_allocated ha) kept

theorem Tracks.popReturn (rep : Rep w s h) (ha : w.home c a) :
    Tracks w s h (Context.popReturn a) (Ideal.popReturn c) fun w' x y => w' = w ∧ w.home x y := by
  refine .fiber rep ha fun f _ has => .reading (rep.returnStack has) ?_
  exact .popStack (p := fun xs => { f with returns := xs }) rep ha has.returns fun _ _ kept =>
    has.withReturns ha (.all rep.tidy) (rep.home_allocated ha) kept

/-- A value is pushed on a stack behind a protected context. -/
theorem Tracks.pushStack {st j : Nat} {xs : List Ref} (rep : Rep w s h) (ha : w.home c a) (root : c ∈ s.roots)
    (stack : w.HasStack h c j st xs) (child : h.Child a st) (ne : j ≠ 0) (hv : w.home v b)
    (has : ∀ w' h', World.Carries w h (h.Live [st, b]) w' → w.KeptBeside h h' (h.Live [st, b]) c j →
      w'.HasStack h' c j st (xs ++ [v]) → w'.HasFiber h' c a f) :
    Tracks w s h (Stack.push st b) (replace c (.context f)) fun _ _ _ => True := by
  obtain ⟨d, as, is, own, own', homes, start⟩ := stack
  have good : ∀ x ∈ [st, b], h.Allocated x := by simp [rep.allocated _ _ _ own, rep.home_allocated hv]
  have sv : h.Survives (h.Live [st, b]) := .live rep.tidy good
  have la : h.Live [st, b] a := .root (rep.root ha root)
  have lst : h.Live [st, b] st := .extra (by simp)
  have ld := lst.child (is.child rep.tidy)
  have part : ∀ b, b = st ∨ b = d → w.owns c j b := by
    rintro b (rfl | rfl)
    · exact own
    · exact own'
  refine .change (ρ := [st, b]) (y := ()) (o := .context f) rep good ha la rfl part ne ?_
  rcases is.push rep.tidy (rep.home_allocated hv) with full | ⟨h', d', N, run, e, is', moved⟩
  · exact .inl full
  · right
    refine ⟨(), h', N, run, e, ?_, fun _ _ => trivial⟩
    have carries : World.Carries w h (h.Live [st, b]) (w.evolve (h.Live [st, b]) c (N.map (Prod.mk j)) (w.part c)) :=
      .evolve rep.tidy sv fun _ _ => rfl
    refine has _ h' carries (rep.keptBeside e part) ⟨d', as ++ [b], is', ?_, ?_, ?_, ?_⟩
    · exact World.owns_evolve own lst ha la
    · rcases moved with ⟨rfl, rfl⟩ | rfl
      · exact World.owns_evolve own' ld ha la
      · exact World.owns_evolve_new (by simp)
    · refine List.rel_append (carries.homes homes fun x hx => ld.child (is.item_child rep.tidy hx)) (.cons ?_ .nil)
      exact carries.home _ _ hv (.extra (by simp))
    · rw [World.part_evolve]
      exact start

theorem Tracks.expectRegistered {α β : Type} {m : HeapM α} {n : StoreM β} {Q : World → β → α → Prop}
    (next : c ∈ s.contexts → Tracks w s h m n Q) : Tracks w s h m (Ideal.expectRegistered c >>= fun _ => n) Q := by
  by_cases known : c ∈ s.contexts
  · exact .ideal (d := ()) (by rw [Ideal.expectRegistered, if_pos known]) (next known)
  · exact .wild (u := s) (by rw [run_bind, Ideal.expectRegistered, if_neg known])

theorem Tracks.pushOperand (rep : Rep w s h) (ha : w.home c a) (hv : w.home v b) :
    Tracks w s h (Context.pushOperand a b) (Ideal.pushOperand c v) fun _ _ _ => True := by
  refine .expectRegistered fun known => .fiber rep ha fun f _ has => .reading (rep.operandStack has) ?_
  refine .pushStack (j := 1) rep ha (List.mem_append_left _ known) has.operands (rep.tidy.child_field has.is rfl (by decide)) (by decide) hv ?_
  exact fun _ _ carries kept => has.withOperands ha carries (.root (rep.root ha (List.mem_append_left _ known))) kept

theorem Tracks.pushReturn (rep : Rep w s h) (ha : w.home c a) (hv : w.home v b) :
    Tracks w s h (Context.pushReturn a b) (Ideal.pushReturn c v) fun _ _ _ => True := by
  refine .expectRegistered fun known => .fiber rep ha fun f _ has => .reading (rep.returnStack has) ?_
  refine .pushStack (j := 2) rep ha (List.mem_append_left _ known) has.returns (rep.tidy.child_field has.is rfl (by decide)) (by decide) hv ?_
  exact fun _ _ carries kept => has.withReturns ha carries (.root (rep.root ha (List.mem_append_left _ known))) kept

theorem Tracks.enterEnvironment (rep : Rep w s h) (ha : Held w s c a) (hv : w.home v b) :
    Tracks w s h (Context.enterEnvironment a b) (Ideal.enterEnvironment c v) fun _ _ _ => True := by
  refine .read_bind (Reads.environment rep ha.home) fun f e env => ?_
  refine (Tracks.withRoots rep (.cons hv .nil) fun rep => .pushReturn rep ha.home env).bind ?_
  rintro _ s' _ h' w' rep' keeps ⟨_, stays⟩
  exact (Tracks.setEnvironment rep' (ha.keep keeps).home (stays v (by simp) b hv)).weaken fun _ _ _ _ => trivial

theorem Tracks.newContext (rep : Rep w s h) (hv : w.home v b) (pc number : Nat) :
    Tracks w s h (Context.create pc b number) (Ideal.newContext pc v number) (Makes w h [b]) := by
  have good : ∀ x ∈ [b], h.Allocated x := by simpa using rep.home_allocated hv
  refine Tracks.make (ρ := [b]) (o := .context ⟨wrap pc, [], [], v, false, [], wrap number⟩) rep good rfl ?_
    fun w' a home stays => ⟨home, stays⟩
  rcases rep.tidy.createContext (rep.home_allocated hv) pc number with
    full | ⟨a, o, od, r, rd, l, h', run, e, nodup, new⟩
  · exact .inl full
  right
  refine ⟨a, h', [(0, a), (1, o), (1, od), (2, r), (2, rd), (3, l)],
    fun k => if k = 0 then a else if k = 1 then o else if k = 2 then r else l, run, e, roles_of_nodup nodup, by simp, rfl, ?_⟩
  generalize eq : World.evolve w _ _ _ _ = w'
  have owns (k b : Nat) (hb : (k, b) ∈ [(0, a), (1, o), (1, od), (2, r), (2, rd), (3, l)]) :
      w'.owns s.objects.length k b := by
    rw [← eq]
    exact World.owns_evolve_new hb
  have part (k : Nat) : w'.part s.objects.length k = if k = 0 then a else if k = 1 then o else if k = 2 then r else l := by
    rw [← eq, World.part_evolve]
  refine ⟨new.is, new.pc.trans (toNat_wrap pc), ?_, ?_, ?_, new.blocked, ?_, new.id.trans (toNat_wrap number)⟩
  · rw [new.operandsAt]
    exact ⟨od, [], new.operands, owns 1 o (by simp), owns 1 od (by simp), .nil, (part 1).symm⟩
  · rw [new.returnsAt]
    exact ⟨rd, [], new.returns, owns 2 r (by simp), owns 2 rd (by simp), .nil, (part 2).symm⟩
  · rw [new.environment, ← eq]
    exact World.home_evolve hv (.extra (by simp))
  · rw [new.waitsAt]
    exact ⟨[], [], new.waits, owns 3 l (by simp), fun n hn => absurd hn List.not_mem_nil, .nil, (part 3).symm⟩

end FiberMachine
