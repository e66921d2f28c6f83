import FiberMachine.Proofs.Ideal.Copying
import FiberMachine.Proofs.Ideal.Engine

/-!
# Calm instructions

The instructions that compute, call and return leave the communication state alone. Each is shown to be calm
from what it does to the store, with the context whose turn it is registered and not blocked.
-/

namespace FiberMachine.Ideal.Engine

variable {F : Prop} {α β : Type} {e e' : Engine} {s : Store} {r v c q : Ref} {t : Tag} {k n : Nat} {o : Obj} {xs : List Ref}

/-- The turn, what has been printed and the number of the next context are left alone. -/
structure Beside (e e' : Engine) : Prop where
  scheduler : e'.scheduler = e.scheduler
  output : e'.output = e.output
  nextId : e'.nextId = e.nextId

theorem Beside.refl : Beside e e := ⟨rfl, rfl, rfl⟩

theorem Beside.trans {e'' : Engine} (x : Beside e e') (y : Beside e' e'') : Beside e e'' :=
  ⟨y.scheduler.trans x.scheduler, y.output.trans x.output, y.nextId.trans x.nextId⟩

/-- The action is calm and has the postcondition `P`, or fails in an admitted way. -/
def Quiet (F : Prop) (n : EngineM α) (e : Engine) (P : α → Store → Prop) : Prop :=
  Safe (Admits F) n e fun a e' => Calm e.store e'.store ∧ Beside e e' ∧ P a e'.store

/-- The store is typed, and the context has the turn. -/
structure Active (s : Store) (c : Ref) : Prop where
  typed : s.Typed
  running : s.Running c

theorem Active.keep {s' : Store} (active : Active s c) (calm : Calm s s') : Active s' c :=
  ⟨calm.typed, active.running.keep calm⟩

theorem Active.isContext (active : Active s c) : s.IsTag c .context := active.typed.contexts c active.running.registered

namespace Quiet

variable {n : EngineM α} {P : α → Store → Prop} {Q : β → Store → Prop} {l : α → EngineM β}

theorem pure {a : α} (typed : e.store.Typed) (p : P a e.store) : Quiet F (pure a) e P := ⟨.refl typed, .refl, p⟩

theorem bind (f : Quiet F n e P) (next : ∀ a e', Calm e.store e'.store → P a e'.store → Quiet F (l a) e' Q) :
    Quiet F (n >>= l) e Q :=
  Safe.bind f fun a e' ⟨calm, beside, p⟩ =>
    (next a e' calm p).weaken fun _ _ ⟨calm', beside', q⟩ => ⟨calm.trans calm', beside.trans beside', q⟩

theorem weaken {R : α → Store → Prop} (f : Quiet F n e P) (more : ∀ a s', P a s' → R a s') : Quiet F n e R :=
  Safe.weaken f fun a e' ⟨calm, beside, p⟩ => ⟨calm, beside, more a e'.store p⟩

theorem abort {cause : MachineError} (other : cause ≠ .heap (.mixedWaiters 0)) : Quiet F (abort cause : EngineM α) e P := other

theorem store {n : StoreM α} (f : Ideal.Quiet F n e.store P) : Quiet F (liftM n) e P :=
  safe_store (Safe.weaken f fun _ _ ⟨calm, p⟩ => ⟨calm, ⟨rfl, rfl, rfl⟩, p⟩)

/-- What is observed decides how the action goes on. -/
theorem observe {n : StoreM α} {R : α → Prop} (f : Observes F n e.store R)
    (next : ∀ a, R a → Quiet F (l a) e Q) : Quiet F (liftM n >>= l) e Q :=
  Safe.bind (Q := fun a e' => e' = e ∧ R a) (safe_store (Safe.weaken f fun _ _ ⟨same, p⟩ => ⟨by rw [same], p⟩))
    fun a _ ⟨same, p⟩ => same ▸ next a p

/-! ### Operands -/

theorem protecting {n : StoreM Ref} {P : Ref → Store → Prop} (f : Ideal.Quiet F n e.store P)
    (more : ∀ r s s', s'.objects = s.objects → P r s → P r s') : Quiet F (protecting n) e P :=
  bind (store f) fun r _ calm p => bind (store (Ideal.Quiet.pushRoot calm.typed)) fun _ _ calm' same =>
    pure calm'.typed (more r _ _ same p)

theorem pop (active : Active e.store c) : Quiet F (pop c) e fun v s' =>
    s'.Known v ∧ (∃ rest, e.store.Operands c (rest ++ [v]) ∧ s'.Operands c rest) ∧ e.store.OnlyAt c s' := by
  refine protecting (Ideal.Quiet.popOperand active.typed active.isContext) ?_
  rintro v s s' same ⟨known, ⟨rest, before, after⟩, others⟩
  refine ⟨?_, ⟨rest, before, ?_⟩, fun q ne => same ▸ others q ne⟩
  · rw [Store.Known, same]
    exact known
  · rw [Store.Operands, same]
    exact after

theorem popOnto (active : Active e.store c) (above : List Ref) (known : ∀ v ∈ above, e.store.Known v) (j : Nat) :
    Quiet F (popOnto c above j) e fun xs s' => (∀ v ∈ xs, s'.Known v) ∧
      (∃ front rest, xs = front ++ above ∧ front.length = j ∧ e.store.Operands c (rest ++ front) ∧ s'.Operands c rest) ∧
      e.store.OnlyAt c s' := by
  induction j generalizing e above with
  | zero =>
    obtain ⟨f, ho, _⟩ := active.typed.fiber active.isContext
    have same : e.store.Operands c (f.operands ++ []) := ⟨f, ho, (List.append_nil _).symm⟩
    exact pure active.typed ⟨known, ⟨[], f.operands, rfl, rfl, same, f, ho, rfl⟩, fun _ _ => rfl⟩
  | succ j ih =>
    refine bind (pop active) fun v e₁ calm ⟨hv, ⟨rest, before, after⟩, others⟩ => ?_
    refine (ih (active.keep calm) (v :: above) fun x hx => ?_).weaken
      fun xs s' ⟨known, ⟨front, rest', eq, length, before', after'⟩, others'⟩ => ?_
    · rcases List.mem_cons.mp hx with rfl | hx
      · exact hv
      · exact (known x hx).grow calm.grows
    · refine ⟨known, ⟨front ++ [v], rest', by simp [eq], by simp [length], ?_, after'⟩, fun q ne => (others' q ne).trans (others q ne)⟩
      cases before'.unique after
      simpa using before

theorem popMany (active : Active e.store c) (j : Nat) (room : F ∨ j * 8 < hostLimit) : Quiet F (popMany c j) e fun xs s' =>
    (∀ v ∈ xs, s'.Known v) ∧ (xs.length = j ∧ ∃ rest, e.store.Operands c (rest ++ xs) ∧ s'.Operands c rest) ∧
      e.store.OnlyAt c s' := by
  have listable : Observes F (expectListable j) e.store fun _ => True := by
    unfold expectListable
    split
    · exact Observes.pure trivial
    next full => exact room.resolve_right full
  refine observe listable fun _ _ => ?_
  refine (popOnto active [] (fun _ no => absurd no List.not_mem_nil) j).weaken ?_
  rintro xs s' ⟨known, ⟨front, rest, eq, length, before, after⟩, others⟩
  rw [List.append_nil] at eq
  subst eq
  exact ⟨known, ⟨length, rest, before, after⟩, others⟩

theorem popInt (active : Active e.store c) : Quiet F (popInt c) e fun _ _ => True :=
  bind (pop active) fun _ _ calm ⟨known, _⟩ =>
    store ((Observes.expectInt calm.typed known).quiet calm.typed)

theorem popBool (active : Active e.store c) : Quiet F (popBool c) e fun _ _ => True :=
  bind (pop active) fun _ _ calm ⟨known, _⟩ =>
    store ((Observes.expectBool calm.typed known).quiet calm.typed)

theorem popOption (active : Active e.store c) (given : Bool) {l : Option Int64 → EngineM β}
    (next : ∀ x e', Calm e.store e'.store → Quiet F (l x) e' Q) :
    Quiet F (if given then some <$> Engine.popInt c >>= l else Pure.pure none >>= l) e Q := by
  cases given with
  | true =>
    simp only [if_true, map_eq_pure_bind, bind_assoc, pure_bind]
    exact bind (popInt active) fun x e' calm _ => next (some x) e' calm
  | false => exact next none e (.refl active.typed)

theorem push (active : Active e.store c) (known : e.store.Known v) : Quiet F (push c v) e fun _ _ => True :=
  store (Ideal.Quiet.pushOperand active.typed active.running.registered known)

theorem load {n : StoreM Ref} (active : Active e.store c) (f : Ideal.Quiet F n e.store fun r s' => s'.Known r) :
    Quiet F (load c n) e fun _ _ => True :=
  bind (store f) fun _ _ calm known => push (active.keep calm) known

theorem loadTag {n : StoreM Ref} (active : Active e.store c) (f : Ideal.Quiet F n e.store fun r s' => s'.IsTag r t) :
    Quiet F (Engine.load c n) e fun _ _ => True :=
  load active (f.weaken fun _ _ _ k => k.known)

theorem zeroValue (typed : s.Typed) (kind : ValueKind) : Ideal.Quiet F (zeroValue kind) s fun r s' =>
    s'.Known r ∧ ∀ k, s'.Apart k r := by
  have plain {n : StoreM Ref} {t : Tag} (other : t ≠ .array) (f : Ideal.Quiet F n s fun r s' => s'.IsTag r t) :
      Ideal.Quiet F n s fun r s' => s'.Known r ∧ ∀ k, s'.Apart k r :=
    f.weaken fun r s' _ k => ⟨k.known, Store.apart_of_other k other⟩
  cases kind with
  | int => exact plain (by decide) (Ideal.Quiet.newInt typed _)
  | float => exact plain (by decide) (Ideal.Quiet.newFloat typed _)
  | bool => exact plain (by decide) (Ideal.Quiet.newBool typed _)
  | string => exact plain (by decide) (Ideal.Quiet.newText typed _)
  | slice => exact plain (t := .slice) (by decide) ((Ideal.Quiet.nilSlice typed).weaken fun _ _ _ ho => ⟨_, ho, rfl⟩)
  | waitGroup =>
    refine plain (t := .waitGroup) (by decide) (Ideal.Quiet.make (o := .waitGroup 0 []) typed ?_ rfl)
    exact fun _ no => absurd no List.not_mem_nil
  | chan => exact .pure typed ⟨typed.nil.known, Store.apart_of_other typed.nil (by decide)⟩
  | func => exact .pure typed ⟨typed.nil.known, Store.apart_of_other typed.nil (by decide)⟩

/-! ### Variables and scopes -/

theorem fiber_bind {l : Fiber → EngineM β} (active : Active e.store c)
    (next : ∀ f, e.store.objects[c]? = some (.context f) → e.store.IsTag f.environment .environment → Quiet F (l f) e Q) :
    Quiet F (liftM (fiber c) >>= l) e Q := by
  obtain ⟨f, ho, env, _⟩ := active.typed.fiber active.isContext
  exact observe (Observes.fiber ho) fun g same => same ▸ next f ho env

theorem execLoadVar (active : Active e.store c) (frame slot : Nat) : Quiet F (execLoadVar c frame slot) e fun _ _ => True :=
  fiber_bind active fun _ _ env => observe (Observes.lookup active.typed env frame slot) fun _ known => push active known

theorem execStoreVar (active : Active e.store c) (frame slot : Nat) : Quiet F (execStoreVar c frame slot) e fun _ _ => True := by
  refine bind (pop active) fun v e₁ calm₁ ⟨known, _⟩ => ?_
  refine bind (store (Ideal.Quiet.copy calm₁.typed known)) fun x e₂ calm₂ copied => ?_
  refine fiber_bind ((active.keep calm₁).keep calm₂) fun f _ env => ?_
  exact store (Ideal.Quiet.assign calm₂.typed env frame slot copied.known)

theorem newFrame (typed : s.Typed) (n : Nat) : Ideal.Quiet F (newFrame n) s fun r s' =>
    s'.objects[r]? = some (.sequence .frame (List.replicate n 0)) :=
  (Ideal.Quiet.zeros typed (.inr rfl) n).weaken fun _ _ _ made => made.1

theorem execEnterScope (active : Active e.store c) (slots : Nat) : Quiet F (execEnterScope c slots) e fun _ _ => True := by
  refine bind (protecting (newFrame active.typed slots) fun _ _ _ same ho => same ▸ ho) fun frame e₁ calm₁ ho => ?_
  refine fiber_bind (active.keep calm₁) fun f _ env => ?_
  refine bind (store (Ideal.Quiet.extend calm₁.typed env ⟨_, ho, rfl⟩)) fun scope e₂ calm₂ scopes => ?_
  have running := ((active.keep calm₁).keep calm₂).running
  exact store (Ideal.Quiet.enterEnvironment calm₂.typed running.registered scopes.isTag)

theorem execExitScope (active : Active e.store c) : Quiet F (execExitScope c) e fun _ _ => True := by
  refine bind (store (Ideal.Quiet.popReturn active.typed active.isContext)) fun saved e₁ calm known => ?_
  refine observe (Observes.expect known .environment) fun _ env => ?_
  exact store (Ideal.Quiet.setEnvironment calm.typed (active.keep calm).isContext env)

/-! ### Operators -/

theorem box (typed : s.Typed) (p : Machine.Primitive) : Ideal.Quiet F (box p) s fun r s' => s'.Known r := by
  cases p with
  | int v => exact (Ideal.Quiet.newInt typed v).weaken fun _ _ _ k => k.known
  | float v => exact (Ideal.Quiet.newFloat typed v).weaken fun _ _ _ k => k.known
  | bool v => exact (Ideal.Quiet.newBool typed v).weaken fun _ _ _ k => k.known

/-- The operators never say that waiters are mixed. -/
def Plain (x : Except MachineError α) : Prop := ∀ cause, x = .error cause → cause ≠ .heap (.mixedWaiters 0)

theorem boxed (typed : e.store.Typed) (x : Except MachineError Machine.Primitive) (plain : Plain x) :
    Quiet F (ofExcept x >>= fun p => liftM (Engine.box p)) e fun r s' => s'.Known r := by
  cases x with
  | ok p => exact store (box typed p)
  | error cause => exact plain cause rfl

theorem plain_ok (a : α) : Plain (.ok a) := fun _ no => nomatch no

theorem plain_error {cause : MachineError} (other : cause ≠ .heap (.mixedWaiters 0)) : Plain (.error cause : Except MachineError α) :=
  fun _ same => by cases same; exact other

theorem plain_comparison (op : BinaryOp) (order : Ordering) (left right : Tag) : Plain (Machine.comparison op order left right) := by
  unfold Machine.comparison
  split
  · exact plain_ok _
  · exact plain_error MachineError.noConfusion

theorem plain_onInts (op : BinaryOp) (a b : Int64) : Plain (Machine.onInts op a b) := by
  unfold Machine.onInts
  split
  all_goals first
    | exact plain_ok _
    | exact plain_comparison _ _ _ _
    | split
      · exact plain_error MachineError.noConfusion
      · exact plain_ok _

theorem plain_onFloats (op : BinaryOp) (a b : Binary64) : Plain (Machine.onFloats op a b) := by
  unfold Machine.onFloats
  split
  all_goals first
    | exact plain_ok _
    | exact plain_error MachineError.noConfusion

theorem plain_onBools (op : BinaryOp) (a b : Bool) : Plain (Machine.onBools op a b) := by
  unfold Machine.onBools
  split
  all_goals first
    | exact plain_ok _
    | exact plain_error MachineError.noConfusion

theorem sameReference? (typed : s.Typed) {left right : Ref} (hl : s.Known left) (hr : s.Known right) :
    Observes F (sameReference? left right) s fun _ => True := by
  obtain ⟨l, hl⟩ := hl
  obtain ⟨r, hr⟩ := hr
  refine (Observes.tag hl).bind fun lt same => (Observes.tag hr).bind fun rt same' => ?_
  have seen {q : Ref} {o : Obj} (ho : s.objects[q]? = some o) (slice : o.tag = .slice) {k : Ref × Nat × Nat → StoreM (Option Bool)}
      (next : ∀ p, Observes F (k p) s fun _ => True) : Observes F (sliceOf q >>= k) s fun _ => True := by
    obtain ⟨array, first, stop, n, there, le, _⟩ := typed.slice ⟨o, ho, slice⟩
    exact (Observes.sliceOf there le).bind fun p _ => next p
  split
  · exact seen hl same.symm fun _ => Observes.pure trivial
  · exact seen hr same'.symm fun _ => Observes.pure trivial
  · exact Observes.pure trivial
  · exact Observes.pure trivial
  · exact Observes.pure trivial

theorem onReferences (typed : e.store.Typed) (op : BinaryOp) {left right : Ref} (hl : e.store.Known left)
    (hr : e.store.Known right) : Quiet F (onReferences op left right) e fun _ _ => True := by
  obtain ⟨o, ho⟩ := hl
  obtain ⟨o', ho'⟩ := hr
  refine observe (Observes.tag ho) fun lt _ => observe (Observes.tag ho') fun rt _ => ?_
  cases op
  case eq | ne =>
    refine observe (sameReference? typed ⟨_, ho⟩ ⟨_, ho'⟩) fun same _ => ?_
    cases same with
    | some same => exact pure typed trivial
    | none => exact abort MachineError.noConfusion
  all_goals exact abort MachineError.noConfusion

theorem applyBinary (typed : e.store.Typed) (op : BinaryOp) {left right : Ref} (hl : e.store.Known left)
    (hr : e.store.Known right) : Quiet F (applyBinary op left right) e fun r s' => s'.Known r := by
  obtain ⟨o, ho⟩ := hl
  obtain ⟨o', ho'⟩ := hr
  refine observe (Observes.tag ho) fun lt same => observe (Observes.tag ho') fun rt same' => ?_
  have kl : e.store.IsTag left lt := ⟨o, ho, same.symm⟩
  have kr : e.store.IsTag right rt := ⟨o', ho', same'.symm⟩
  split
  · exact observe (Observes.int typed kl) fun a _ => observe (Observes.int typed kr) fun b _ =>
      boxed typed _ (plain_onInts op a b)
  · exact observe (Observes.float typed kl) fun a _ => observe (Observes.float typed kr) fun b _ =>
      boxed typed _ (plain_onFloats op a b)
  · exact observe (Observes.bool typed kl) fun a _ => observe (Observes.bool typed kr) fun b _ =>
      boxed typed _ (plain_onBools op a b)
  · split
    · refine observe (Observes.bytes typed kl) fun bs _ => observe (Observes.bytes typed kr) fun bs' _ => ?_
      exact store ((Ideal.Quiet.newText typed _).weaken fun _ _ _ k => k.known)
    · exact observe (Observes.bytes typed kl) fun bs _ => observe (Observes.bytes typed kr) fun bs' _ =>
        boxed typed _ (plain_comparison _ _ _ _)
  · refine bind (onReferences typed op ⟨o, ho⟩ ⟨o', ho'⟩) fun p e₁ calm _ => ?_
    exact store (box calm.typed p)

theorem execBinary (active : Active e.store c) (op : BinaryOp) : Quiet F (execBinary c op) e fun _ _ => True := by
  refine bind (pop active) fun right e₁ calm₁ ⟨hr, _⟩ => bind (pop (active.keep calm₁)) fun left e₂ calm₂ ⟨hl, _⟩ => ?_
  refine bind (applyBinary calm₂.typed op hl (hr.grow calm₂.grows)) fun r e₃ calm₃ known => ?_
  exact push (((active.keep calm₁).keep calm₂).keep calm₃) known

theorem applyUnary (typed : e.store.Typed) (op : UnaryOp) {operand : Ref} (known : e.store.Known operand) :
    Quiet F (applyUnary op operand) e fun r s' => s'.Known r := by
  obtain ⟨o, ho⟩ := known
  refine observe (Observes.tag ho) fun t same => ?_
  have k : e.store.IsTag operand t := ⟨o, ho, same.symm⟩
  split
  · exact observe (Observes.int typed k) fun a _ => store ((Ideal.Quiet.newInt typed _).weaken fun _ _ _ k => k.known)
  · exact observe (Observes.float typed k) fun a _ => store ((Ideal.Quiet.newFloat typed _).weaken fun _ _ _ k => k.known)
  · exact observe (Observes.int typed k) fun a _ => store ((Ideal.Quiet.newInt typed _).weaken fun _ _ _ k => k.known)
  · exact observe (Observes.bool typed k) fun a _ => store ((Ideal.Quiet.newBool typed _).weaken fun _ _ _ k => k.known)
  · exact abort MachineError.noConfusion

theorem execUnary (active : Active e.store c) (op : UnaryOp) : Quiet F (execUnary c op) e fun _ _ => True := by
  refine bind (pop active) fun operand e₁ calm₁ ⟨known, _⟩ => ?_
  refine bind (applyUnary calm₁.typed op known) fun r e₂ calm₂ known => ?_
  exact push ((active.keep calm₁).keep calm₂) known

/-! ### Calls -/

theorem execLoadFunc (active : Active e.store c) (pc entry arity : Nat) :
    Quiet F (execLoadFunc c pc entry arity) e fun _ _ => True := by
  refine fiber_bind active fun f _ env => ?_
  refine bind (store (Ideal.Quiet.newCode active.typed entry arity env pc)) fun r e₁ calm k => ?_
  exact push (active.keep calm) k.known

theorem bindParameters {frame : Ref} (typed : e.store.Typed) (k : e.store.IsTag frame .frame) (i : Nat)
    (known : ∀ v ∈ xs, e.store.Known v) : Quiet F (bindParameters frame i xs) e fun _ _ => True := by
  induction xs generalizing e i with
  | nil => exact pure typed trivial
  | cons v rest ih =>
    refine bind (store (Ideal.Quiet.copy typed (known v List.mem_cons_self))) fun x e₁ calm₁ copied => ?_
    have k := k.grow calm₁.grows
    obtain ⟨ys, ho⟩ := calm₁.typed.canonical k
    have storable : e₁.store.Storable frame x := ⟨copied.known, fun array => nomatch k.unique array⟩
    refine bind (store (Ideal.Quiet.setItem calm₁.typed ho (.inr rfl) storable _)) fun _ e₂ calm₂ _ => ?_
    refine ih calm₂.typed (k.grow calm₂.grows) (i + 1) fun v hv => ?_
    exact (known v (List.mem_cons_of_mem _ hv)).grow (calm₁.grows.trans calm₂.grows)

/-- The environment of a call. -/
theorem bindArguments {closure : Ref} (typed : e.store.Typed) (k : e.store.IsTag closure .func)
    (known : ∀ v ∈ xs, e.store.Known v) : Quiet F (bindArguments closure xs) e fun env s' => s'.IsTag env .environment := by
  refine observe (Observes.code typed k) fun d _ => ?_
  by_cases mismatch : d.arity ≠ xs.length
  · simp only [if_pos mismatch]
    exact bind (P := fun _ _ => False) (abort MachineError.noConfusion) fun _ _ _ no => no.elim
  simp only [if_neg mismatch]
  refine bind (protecting (newFrame typed _) fun _ _ _ same ho => same ▸ ho) fun frame e₁ calm₁ ho => ?_
  have isFrame : e₁.store.IsTag frame .frame := ⟨_, ho, rfl⟩
  refine bind (bindParameters calm₁.typed isFrame 0 fun v hv => (known v hv).grow calm₁.grows) fun _ e₂ calm₂ _ => ?_
  have k₂ := k.grow (calm₁.grows.trans calm₂.grows)
  refine observe (Observes.code calm₂.typed k₂) fun d' ⟨_, env⟩ => ?_
  refine bind (protecting (Ideal.Quiet.extend calm₂.typed env (isFrame.grow calm₂.grows)) ?_) fun scope e₃ calm₃ scopes => ?_
  · exact fun _ _ _ same ⟨xs, ho, inside⟩ => ⟨xs, same ▸ ho, inside⟩
  · exact observe (Observes.code calm₃.typed (k₂.grow calm₃.grows)) fun _ _ => pure calm₃.typed scopes.isTag

theorem unwind (active : Active e.store c) (n : Nat) : Quiet F (unwind c n) e fun outcome _ => outcome ≠ .block := by
  induction n generalizing e with
  | zero => exact abort MachineError.noConfusion
  | succ n ih =>
    refine fiber_bind active fun f _ _ => ?_
    split
    · exact bind (P := fun _ _ => False) (abort MachineError.noConfusion) fun _ _ _ no => no.elim
    refine bind (store (Ideal.Quiet.popReturn active.typed active.isContext)) fun entry e₁ calm₁ ⟨o, ho⟩ => ?_
    have active₁ := active.keep calm₁
    refine observe (Observes.tag ho) fun t same => ?_
    have k : e₁.store.IsTag entry t := ⟨o, ho, same.symm⟩
    split
    · refine bind (store (Ideal.Quiet.setEnvironment calm₁.typed active₁.isContext k)) fun _ e₂ calm₂ _ => ?_
      exact ih (active₁.keep calm₂)
    · refine observe (Observes.target calm₁.typed k) fun pc _ => ?_
      cases pc with
      | some pc =>
        refine bind (store (Ideal.Quiet.setPc calm₁.typed active₁.running pc)) fun _ e₂ calm₂ _ => ?_
        exact pure calm₂.typed (by decide)
      | none => exact pure calm₁.typed (by decide)
    · exact abort (by simp)

theorem execReturn (active : Active e.store c) : Quiet F (execReturn c) e fun outcome _ => outcome ≠ .block :=
  fiber_bind active fun _ _ _ => unwind active _

theorem execLoadMethod (active : Active e.store c) (method : String) : Quiet F (execLoadMethod c method) e fun _ _ => True := by
  refine bind (pop active) fun receiver e₁ calm₁ ⟨known, _⟩ => ?_
  refine bind (store (Ideal.Quiet.newMethod calm₁.typed known method)) fun bound e₂ calm₂ k => ?_
  exact push ((active.keep calm₁).keep calm₂) k.known

/-! ### Collections -/

/-- Copies: known, apart from all older arrays, and nothing older is changed. -/
theorem copies (typed : e.store.Typed) (known : ∀ v ∈ xs, e.store.Known v) : Quiet F (copies xs) e fun ys s' =>
    (∀ y ∈ ys, s'.Known y ∧ s'.Apart e.store.objects.length y) ∧ Appends e.store s' := by
  induction xs generalizing e with
  | nil => exact pure typed ⟨fun _ no => absurd no List.not_mem_nil, .refl⟩
  | cons v rest ih =>
    refine bind (protecting (P := fun x s' => Copied e.store x s') (Ideal.Quiet.copy typed (known v List.mem_cons_self)) ?_)
      fun x e₁ calm copied => ?_
    · intro r s s' same copied
      refine ⟨?_, ?_, fun q o ho => same ▸ copied.appends q o ho⟩
      · rw [Store.Known, same]
        exact copied.known
      · have apart := copied.apart
        have nests : s'.Nests = s.Nests := by
          funext x r
          rw [Store.Nests, Store.Nests, same]
        intro a ha array within
        rw [Store.Within, nests] at within
        rw [Store.IsTag, same] at array
        exact apart a ha array within
    refine bind (ih calm.typed fun v hv => (known v (List.mem_cons_of_mem _ hv)).grow calm.grows) ?_
    rintro ys e₂ calm₂ ⟨made, appends⟩
    have longer : e.store.objects.length ≤ e₁.store.objects.length := by
      by_contra short
      obtain ⟨o, ho⟩ := Store.known_iff.mpr (Nat.not_le.mp short)
      exact Nat.lt_irrefl _ (Store.known_iff.mp ⟨o, copied.appends _ o ho⟩)
    refine pure calm₂.typed ⟨fun y hy => ?_, copied.appends.trans appends⟩
    rcases List.mem_cons.mp hy with rfl | hy
    · exact ⟨copied.known.grow calm₂.grows, copied.apart.appends calm.typed appends copied.known longer⟩
    · exact ⟨(made y hy).1, fun a ha => (made y hy).2 a (Nat.lt_of_lt_of_le ha longer)⟩

theorem execMakeArray (active : Active e.store c) (n : Nat) (room : F ∨ n * 8 < hostLimit) :
    Quiet F (execMakeArray c n) e fun _ _ => True := by
  refine bind (popMany active n room) fun xs e₁ calm₁ ⟨known, _⟩ => ?_
  refine bind (copies calm₁.typed known) fun ys e₂ calm₂ ⟨made, _⟩ => ?_
  refine load ((active.keep calm₁).keep calm₂) ?_
  exact (Ideal.Quiet.newSequence calm₂.typed (.inl rfl) fun y hy => (made y hy).1).weaken fun _ _ _ made => ⟨_, made.1⟩

theorem fillZero {array : Ref} {size : Nat} (typed : e.store.Typed) (k : e.store.Sized array .array size) (elem : ValueKind) (i j : Nat) (bound : i + j ≤ size) :
    Quiet F (fillZero array elem i j) e fun _ _ => True := by
  induction j generalizing e i with
  | zero => exact pure typed trivial
  | succ j ih =>
    refine bind (store (zeroValue typed elem)) fun x e₁ calm₁ ⟨known, apart⟩ => ?_
    obtain ⟨ys, ho, length⟩ := k.grow calm₁.grows
    have storable : e₁.store.Storable array x := ⟨known, apart (array + 1) array (Nat.lt_succ_self _)⟩
    refine bind (store (Ideal.Quiet.setSlot calm₁.typed ho (.inl rfl) (by omega) storable)) fun _ e₂ calm₂ _ => ?_
    exact ih calm₂.typed (k.grow (calm₁.grows.trans calm₂.grows)) (i + 1) (by omega)

theorem execMakeSlice (active : Active e.store c) (elem : ValueKind) (hasCap : Bool) :
    Quiet F (execMakeSlice c elem hasCap) e fun _ _ => True := by
  refine popOption active hasCap fun capacity? e₁ calm₁ => ?_
  have active₁ := active.keep calm₁
  refine bind (popInt active₁) fun length e₂ calm₂ _ => ?_
  have active₂ := active₁.keep calm₂
  by_cases negative : length < 0
  · simp only [if_pos negative]
    exact bind (P := fun _ _ => False) (abort MachineError.noConfusion) fun _ _ _ no => no.elim
  simp only [if_neg negative]
  by_cases short : capacity?.getD length < length
  · simp only [if_pos short]
    exact bind (P := fun _ _ => False) (abort MachineError.noConfusion) fun _ _ _ no => no.elim
  simp only [if_neg short]
  have fits : length.toInt.toNat ≤ (capacity?.getD length).toInt.toNat := by
    have := Int64.lt_iff_toInt_lt.not.mp short
    omega
  refine bind (protecting (P := fun r s' => s'.Sized r .array (capacity?.getD length).toInt.toNat) ?_ ?_)
    fun array e₃ calm₃ sized => ?_
  · exact (Ideal.Quiet.zeros active₂.typed (.inl rfl) _).weaken fun _ _ _ made => ⟨_, made.1, List.length_replicate⟩
  · exact fun _ _ _ same ⟨ys, ho, length⟩ => ⟨ys, same ▸ ho, length⟩
  refine bind (fillZero calm₃.typed sized elem 0 _ (by omega)) fun _ e₄ calm₄ _ => ?_
  refine loadTag (t := .slice) ((active₂.keep calm₃).keep calm₄) ?_
  exact Ideal.Quiet.window calm₄.typed (Nat.zero_le _) (.inr (sized.grow calm₄.grows)) fits

theorem execIndex (active : Active e.store c) : Quiet F (execIndex c) e fun _ _ => True := by
  refine bind (popInt active) fun index e₁ calm₁ _ => ?_
  refine bind (pop (active.keep calm₁)) fun container e₂ calm₂ ⟨⟨o, ho⟩, _⟩ => ?_
  have active₂ := (active.keep calm₁).keep calm₂
  refine observe (Observes.tag ho) fun t same => ?_
  have k : e₂.store.IsTag container t := ⟨o, ho, same.symm⟩
  split
  · obtain ⟨xs, there⟩ := active₂.typed.canonical k
    exact observe (Observes.getItem there _) fun x hx => push active₂ (active₂.typed.items there x hx)
  · exact observe (Observes.sliceGet active₂.typed k _) fun x known => push active₂ known
  · exact observe (Observes.byteAt active₂.typed k _) fun byte _ => loadTag active₂ (Ideal.Quiet.newInt active₂.typed _)
  · exact abort (by simp)

/-- What the machine stores in a container is apart from the arrays behind it. -/
theorem storeAt {s₀ : Store} {container : Ref} (typed₀ : s₀.Typed) (known : s₀.Known container) (typed : e.store.Typed)
    (appends : Appends s₀ e.store) (value : e.store.Known v) (apart : e.store.Apart s₀.objects.length v) (index : Int) :
    Quiet F (storeAt container index v) e fun _ _ => True := by
  obtain ⟨o, ho₀⟩ := known
  have ho := appends _ o ho₀
  refine observe (Observes.tag ho) fun t same => ?_
  have k₀ : s₀.IsTag container t := ⟨o, ho₀, same.symm⟩
  have k : e.store.IsTag container t := ⟨o, ho, same.symm⟩
  split
  · obtain ⟨xs, there⟩ := typed.canonical k
    exact store (Ideal.Quiet.setItem typed there (.inl rfl) ⟨value, apart container (Store.known_iff.mp k₀.known)⟩ _)
  · refine bind (store (Ideal.Quiet.sliceSet typed k index value ?_)) fun _ e₁ calm _ => ?_
    · intro a first stop there array
      obtain ⟨a', first', stop', n, there₀, _, _, behind⟩ := typed₀.slice k₀
      have same := appends _ _ there₀
      rw [there] at same
      cases same
      refine apart a ?_ array
      rcases behind with ⟨rfl, _⟩ | ⟨xs, ho, _⟩
      · exact Store.known_iff.mp typed₀.nil.known
      · exact Store.known_iff.mp ⟨_, ho⟩
    · obtain ⟨a, first, stop, n, there, le, _⟩ := calm.typed.slice (k.grow calm.grows)
      exact observe (Observes.sliceOf there le) fun _ _ => pure calm.typed trivial
  · exact abort (by simp)

theorem execStoreIndex (active : Active e.store c) : Quiet F (execStoreIndex c) e fun _ _ => True := by
  refine bind (pop active) fun v e₁ calm₁ ⟨hv, _⟩ => ?_
  refine bind (popInt (active.keep calm₁)) fun index e₂ calm₂ _ => ?_
  refine bind (pop ((active.keep calm₁).keep calm₂)) fun container e₃ calm₃ ⟨hc, _⟩ => ?_
  have hv := hv.grow (calm₂.grows.trans calm₃.grows)
  refine bind (store (Ideal.Quiet.copy calm₃.typed hv)) fun x e₄ calm₄ copied => ?_
  exact storeAt calm₃.typed hc calm₄.typed copied.appends copied.known copied.apart _

/-- A number is loaded. -/
theorem count (active : Active e.store c) (n : Nat) : Quiet F (Engine.load c (newInt (Int64.ofNat n))) e fun _ _ => True :=
  loadTag active (Ideal.Quiet.newInt active.typed _)

theorem execLen (active : Active e.store c) : Quiet F (execLen c) e fun _ _ => True := by
  refine bind (pop active) fun container e₁ calm ⟨⟨o, ho⟩, _⟩ => ?_
  have active₁ := active.keep calm
  have typed := active₁.typed
  refine observe (Observes.tag ho) fun t same => ?_
  have k : e₁.store.IsTag container t := ⟨o, ho, same.symm⟩
  cases t
  case array =>
    obtain ⟨xs, there⟩ := typed.canonical k
    exact observe (Observes.items there) fun _ _ => count active₁ _
  case slice => exact observe (Observes.sliceLength typed k) fun _ _ => count active₁ _
  case string => exact observe (Observes.bytes typed k) fun _ _ => count active₁ _
  case channel =>
    obtain ⟨d, there⟩ := typed.canonical k
    exact observe (Observes.duct there) fun _ _ => count active₁ _
  case unassigned => exact count active₁ 0
  all_goals exact bind (P := fun _ _ => False) (abort (by simp)) fun _ _ _ no => no.elim

theorem execCap (active : Active e.store c) : Quiet F (execCap c) e fun _ _ => True := by
  refine bind (pop active) fun container e₁ calm ⟨⟨o, ho⟩, _⟩ => ?_
  have active₁ := active.keep calm
  have typed := active₁.typed
  refine observe (Observes.tag ho) fun t same => ?_
  have k : e₁.store.IsTag container t := ⟨o, ho, same.symm⟩
  cases t
  case array =>
    obtain ⟨xs, there⟩ := typed.canonical k
    exact observe (Observes.items there) fun _ _ => count active₁ _
  case slice =>
    obtain ⟨array, first, stop, n, there, le, fits, behind⟩ := typed.slice k
    exact observe (Observes.sliceCapacity typed there le behind fits) fun _ _ => count active₁ _
  case channel =>
    obtain ⟨d, there⟩ := typed.canonical k
    exact observe (Observes.duct there) fun _ _ => count active₁ _
  case unassigned => exact count active₁ 0
  all_goals exact bind (P := fun _ _ => False) (abort (by simp)) fun _ _ _ no => no.elim

theorem substring (typed : s.Typed) {container : Ref} (k : s.IsTag container .string) (low high : Option Int) :
    Ideal.Quiet F (substring container low high) s fun r s' => s'.IsTag r .string :=
  (Observes.bytes typed k).bind fun _ _ => (Observes.checkBounds _ _ _).bind fun _ _ => Ideal.Quiet.newText typed _

theorem execSlice (active : Active e.store c) (hasLow hasHigh : Bool) : Quiet F (execSlice c hasLow hasHigh) e fun _ _ => True := by
  refine popOption active hasHigh fun high e₁ calm₁ => ?_
  refine popOption (active.keep calm₁) hasLow fun low e₂ calm₂ => ?_
  refine bind (pop ((active.keep calm₁).keep calm₂)) fun container e₃ calm₃ ⟨⟨o, ho⟩, _⟩ => ?_
  have active₃ := ((active.keep calm₁).keep calm₂).keep calm₃
  refine observe (Observes.tag ho) fun t same => ?_
  have k : e₃.store.IsTag container t := ⟨o, ho, same.symm⟩
  split
  · exact loadTag active₃ (Ideal.Quiet.ofArray active₃.typed k _ _)
  · exact loadTag active₃ (Ideal.Quiet.ofSlice active₃.typed k _ _)
  · exact loadTag active₃ (substring active₃.typed k _ _)
  · exact abort (by simp)

/-- The slice that values are appended to: there before they are copied, or without an array. -/
theorem append {s₀ : Store} {target : Ref} {values : List Ref} (typed₀ : s₀.Typed) (active : Active e.store c)
    (appends : Appends s₀ e.store) (made : ∀ v ∈ values, e.store.Known v ∧ e.store.Apart s₀.objects.length v)
    (k : s₀.IsTag target .slice) : Quiet F (Engine.load c (append target values)) e fun _ _ => True := by
  obtain ⟨a, first, stop, n, there₀, _, _, behind⟩ := typed₀.slice k
  have old : a < s₀.objects.length := by
    rcases behind with ⟨rfl, _⟩ | ⟨xs, ho, _⟩
    · exact Store.known_iff.mp typed₀.nil.known
    · exact Store.known_iff.mp ⟨_, ho⟩
  have there := appends _ _ there₀
  refine loadTag active (Ideal.Quiet.append active.typed ⟨_, there, rfl⟩ (fun v hv => (made v hv).1) ?_)
  intro v hv a' first' stop' there' array
  rw [there] at there'
  cases there'
  exact (made v hv).2 a old array

theorem execAppend (active : Active e.store c) (argc : Nat) (room : F ∨ argc * 8 < hostLimit) :
    Quiet F (execAppend c argc) e fun _ _ => True := by
  refine bind (popMany active argc room) fun xs e₁ calm₁ ⟨known, _⟩ => ?_
  refine bind (pop (active.keep calm₁)) fun target e₂ calm₂ ⟨⟨o, ho⟩, _⟩ => ?_
  have active₂ := (active.keep calm₁).keep calm₂
  refine bind (copies active₂.typed fun v hv => (known v hv).grow calm₂.grows) fun ys e₃ calm₃ ⟨made, appends⟩ => ?_
  have active₃ := active₂.keep calm₃
  refine observe (Observes.tag (appends _ o ho)) fun t same => ?_
  have k : e₂.store.IsTag target t := ⟨o, ho, same.symm⟩
  cases t
  case slice => exact append active₂.typed active₃ appends made k
  case unassigned =>
    refine bind (protecting (Ideal.Quiet.nilSlice active₃.typed) fun _ _ _ same ho => same ▸ ho) fun target e₄ calm₄ there => ?_
    have active₄ := active₃.keep calm₄
    refine loadTag active₄ (Ideal.Quiet.append active₄.typed ⟨_, there, rfl⟩ (fun v hv => (made v hv).1.grow calm₄.grows) ?_)
    intro v _ a first stop there' array
    rw [there] at there'
    cases there'
    cases active₄.typed.nil.unique array
  all_goals exact bind (P := fun _ _ => False) (abort (by simp)) fun _ _ _ no => no.elim

/-! ### Channels and requests -/

/-- The channel is new, and the top operand then. -/
theorem execMakeChan (active : Active e.store c) (buffered : Bool) : Quiet F (execMakeChan c buffered) e fun p s' =>
    ∃ d, p.2 = [.made d] ∧ ¬e.store.Known d ∧ ∃ rest, s'.Operands c (rest ++ [d]) := by
  have made {e' : Engine} (active : Active e'.store c) (capacity : Int64) : Quiet F (do
      if capacity < 0 then Engine.abort (.invalidLength .channelCapacity capacity.toInt)
      let channel ← newChannel capacity.toInt.toNat
      Engine.push c channel
      return ((), [Event.made channel])) e' fun p s' =>
        ∃ d, p.2 = [.made d] ∧ ¬e'.store.Known d ∧ ∃ rest, s'.Operands c (rest ++ [d]) := by
    by_cases negative : capacity < 0
    · simp only [negative, if_true]
      exact bind (P := fun _ _ => False) (abort MachineError.noConfusion) fun _ _ _ no => no.elim
    simp only [negative, if_false]
    have new : Ideal.Quiet F (newChannel capacity.toInt.toNat) e'.store fun d s' => s'.Known d ∧ ¬e'.store.Known d := by
      refine (Ideal.Quiet.add (o := .channel ⟨_, [], []⟩) active.typed ?_ rfl).weaken fun d s' _ ⟨ho, same, _⟩ => ⟨⟨_, ho⟩, ?_⟩
      · exact ⟨fun _ no => absurd no List.not_mem_nil, fun _ no => absurd no List.not_mem_nil⟩
      · exact fun known => Nat.lt_irrefl _ (same ▸ Store.known_iff.mp known)
    refine bind (store new) fun d e₁ calm ⟨known, fresh⟩ => ?_
    have active₁ := active.keep calm
    have pushed : Ideal.Quiet F (pushOperand c d) e₁.store fun _ s' => ∃ rest, s'.Operands c (rest ++ [d]) := by
      refine (Safe.both (Ideal.Quiet.pushOperand active₁.typed active₁.running.registered known) Ideal.Quiet.pushOperand_top).weaken ?_
      exact fun _ _ ⟨⟨calm, _⟩, top⟩ => ⟨calm, top⟩
    exact bind (store pushed) fun _ e₂ calm₂ top => pure calm₂.typed ⟨d, rfl, fresh, top⟩
  cases buffered with
  | true =>
    refine bind (popInt active) fun capacity e₁ calm _ => (made (active.keep calm) capacity).weaken ?_
    exact fun p s' ⟨d, events, fresh, top⟩ => ⟨d, events, fun known => fresh (known.grow calm.grows), top⟩
  | false => exact made active 0

theorem expectChannel (known : s.Known r) :
    Observes F (expectChannel r) s fun given => (given = false ∧ r = unassigned) ∨ given = true ∧ s.IsTag r .channel := by
  unfold Engine.expectChannel
  split
  next nil => exact Observes.pure (.inl ⟨rfl, nil⟩)
  next => exact (Observes.expect known .channel).bind fun _ k => Observes.pure (.inr ⟨rfl, k⟩)

theorem newRequest (typed : s.Typed) {r : Request} (good : (Obj.request r).Good s) :
    Ideal.Quiet F (newRequest r) s fun q s' => s'.IsRequest q { r with resume := wrap r.resume } :=
  (Ideal.Quiet.add (o := .request { r with resume := wrap r.resume }) typed good rfl).weaken fun _ _ _ made => made.1

/-- The channel of a request: none, or a channel. -/
def Channelled (s : Store) (r : Ref) : Prop := r = unassigned ∨ s.IsTag r .channel

theorem sendRequest_good {channel : Ref} {resume : Nat} (k : s.IsTag c .context)
    (channelled : Channelled s channel) (known : s.Known v) : (Obj.request (Machine.sendRequest c channel v resume)).Good s :=
  ⟨k, channelled, known, .inl rfl⟩

theorem execSelectSend (active : Active e.store c) (target : Nat) : Quiet F (execSelectSend c target) e fun _ _ => True := by
  refine bind (pop active) fun v e₁ calm₁ ⟨hv, _⟩ => ?_
  refine bind (pop (active.keep calm₁)) fun channel e₂ calm₂ ⟨hc, _⟩ => ?_
  have active₂ := (active.keep calm₁).keep calm₂
  refine observe (expectChannel hc) fun given isChannel => ?_
  refine bind (protecting (P := fun x s' => s'.Known x) ?_ ?_) fun x e₃ calm₃ known => ?_
  · exact (Ideal.Quiet.copy active₂.typed (hv.grow calm₂.grows)).weaken fun _ _ _ copied => copied.known
  · exact fun _ _ _ same ⟨o, ho⟩ => ⟨o, same ▸ ho⟩
  have active₃ := active₂.keep calm₃
  have channelled : Channelled e₃.store channel := isChannel.imp (·.2) fun k => k.2.grow calm₃.grows
  refine bind (store (newRequest active₃.typed (sendRequest_good active₃.isContext channelled known)))
    fun q e₄ calm₄ made => ?_
  exact push (active₃.keep calm₄) made.isTag.known

theorem execSelectRecv (active : Active e.store c) (target : Nat) : Quiet F (execSelectRecv c target) e fun _ _ => True := by
  refine bind (pop active) fun channel e₁ calm₁ ⟨hc, _⟩ => ?_
  have active₁ := active.keep calm₁
  refine observe (expectChannel hc) fun given isChannel => ?_
  refine bind (protecting (newFrame active₁.typed 1) fun _ _ _ same ho => same ▸ ho) fun frame e₂ calm₂ ho => ?_
  have active₂ := active₁.keep calm₂
  have isFrame : e₂.store.Sized frame .frame 1 := ⟨_, ho, rfl⟩
  refine fiber_bind active₂ fun f _ env => ?_
  refine bind (protecting (Ideal.Quiet.extend active₂.typed env isFrame.isTag) ?_) fun scope e₃ calm₃ scopes => ?_
  · exact fun _ _ _ same ⟨xs, ho, inside⟩ => ⟨xs, same ▸ ho, inside⟩
  have active₃ := active₂.keep calm₃
  have channelled : Channelled e₃.store channel := isChannel.imp (·.2) fun k => k.2.grow (calm₂.grows.trans calm₃.grows)
  refine bind (store (newRequest active₃.typed (r := Machine.recvRequest c channel target frame scope) ?_)) fun q e₄ calm₄ made => ?_
  · exact ⟨active₃.isContext, channelled, active₃.typed.nil.known, .inr ⟨isFrame.grow calm₃.grows, scopes⟩⟩
  · exact push (active₃.keep calm₄) made.isTag.known

end Quiet

end FiberMachine.Ideal.Engine
