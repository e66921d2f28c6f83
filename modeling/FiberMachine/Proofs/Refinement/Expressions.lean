import FiberMachine.Proofs.Openings
import FiberMachine.Proofs.Refinement.Machines

/-!
# Variables, operators and collections

The instructions that compute in one context follow the engine.
-/

namespace FiberMachine

open Ideal

variable {w w' : World} {e : Engine} {m : Machine} {s : Store} {h : Heap} {r v c : Ref} {a b n : Nat} {xs : List Ref}
  {as : List Nat}

/-! ### Variables and scopes -/

theorem Tracks.zeroValue (rep : Rep w s h) (kind : ValueKind) :
    Tracks w s h (Machine.zeroValue kind) (Engine.zeroValue kind) fun w' r a => w'.home r a := by
  cases kind
  case int => exact Drives.makes (.newInt rep 0)
  case float => exact Drives.makes (.newFloat rep .zero)
  case bool => exact Drives.makes (.newBool rep false)
  case string => exact Drives.makes (.newText rep [])
  case slice => exact Drives.makes (.window rep rep.nil)
  case waitGroup => exact Drives.makes (.newGroup rep)
  all_goals exact .pure rep rep.nil

theorem Tracks.newFrame (rep : Rep w s h) (k : Nat) :
    Tracks w s h (Scope.newFrame k) (Engine.newFrame k) fun w' r a => w'.home r a :=
  Drives.makes (.newSequence rep rfl k)

namespace Drives

theorem execLoadVar (d : Describes w e m) (hc : Held w e.store c n) (frame slot : Nat) :
    Drives w e m (Machine.execLoadVar n frame slot) (Engine.execLoadVar c frame slot) fun _ _ _ => True := by
  refine read_bind d (.environment d.rep hc.home) fun f env henv => ?_
  exact read_bind d (.lookup d.rep henv frame slot) fun v b hv => push d hc.home hv

theorem execStoreVar (d : Describes w e m) (hc : Held w e.store c n) (frame slot : Nat) :
    Drives w e m (Machine.execStoreVar n frame slot) (Engine.execStoreVar c frame slot) fun _ _ _ => True := by
  refine pop d hc fun v e₁ b m₁ w₁ d₁ keeps₁ hv => ?_
  refine heap_bind d₁ (.copy d₁.rep hv.home) fun x e₂ y m₂ w₂ d₂ keeps₂ hx => ?_
  refine read_bind d₂ (.environment d₂.rep ((hc.keep keeps₁).keep keeps₂).home) fun f env henv => ?_
  have stored := heap_bind (k := fun target => Machine.markDirty target y) (l := fun _ => pure ())
    (R := fun _ _ _ => True) d₂ (.assign d₂.rep henv frame slot hx) fun _ e₃ target m₃ w₃ d₃ _ _ => ?_
  · exact stored.congr rfl (by rw [bind_pure_unit])
  · exact aside (f := fun m => { m with dirty := m.dirty ++ [target, y] }) (k := pure) (answer (d₃.dirty _) trivial)

theorem openScope (d : Describes w e m) (hc : Held w e.store c n) (pc slots : Nat) :
    Drives w e m (Machine.openScope n pc slots) (Engine.openScope c slots) fun w' r a => w'.home r a := by
  refine protecting d (.newFrame d.rep slots) fun frame e₁ b m₁ w₁ d₁ keeps₁ hf => ?_
  have hc₁ := hc.keep keeps₁
  refine read_bind d₁ (.environment d₁.rep hc₁.home) fun f env henv => ?_
  refine heap_bind d₁ (makes (.extend d₁.rep henv hf.home)) fun scope e₂ y m₂ w₂ d₂ keeps₂ hs => ?_
  refine heap_bind d₂ (.enterEnvironment d₂.rep (hc₁.keep keeps₂) hs) fun _ e₃ _ m₃ w₃ d₃ keeps₃ _ => ?_
  have hf₃ := (hf.keep keeps₂).keep keeps₃
  exact noteOrigin d₃ hf₃.home fun m₄ d₄ => answer d₄ hf₃.home

theorem execEnterScope (d : Describes w e m) (hc : Held w e.store c n) (pc slots : Nat) :
    Drives w e m (Machine.execEnterScope n pc slots) (Engine.execEnterScope c slots) fun _ _ _ => True := by
  rw [Machine.execEnterScope_eq, Engine.execEnterScope_eq]
  exact (openScope d hc pc slots).bind fun _ _ _ _ _ d' _ _ => answer d' trivial

theorem execExitScope (d : Describes w e m) (hc : Held w e.store c n) :
    Drives w e m (Machine.execExitScope n) (Engine.execExitScope c) fun _ _ _ => True := by
  refine heap_bind d (.popReturn d.rep hc.home) ?_
  rintro v e₁ b m₁ _ d₁ keeps ⟨rfl, hv⟩
  refine read_bind d₁ (.expect d₁.rep hv .environment) fun _ _ _ => ?_
  exact (heap d₁ (.setEnvironment d₁.rep (hc.keep keeps).home hv)).weaken fun _ _ _ _ => trivial

end Drives

/-! ### Operators -/

theorem Tracks.boxed (rep : Rep w s h) (p : Machine.Primitive) :
    Tracks w s h p.box (Engine.box p) fun w' r a => w'.home r a := by
  cases p
  · exact Drives.makes (.newInt rep _)
  · exact Drives.makes (.newFloat rep _)
  · exact Drives.makes (.newBool rep _)

theorem Reads.sliceArray (rep : Rep w s h) (ha : w.home r a) :
    Reads s h (Slice.array a) (sliceOf r) fun x b => w.home x.1 b := by
  have read : Reads s h (Slice.array a) (sliceOf r >>= fun x => Pure.pure x) fun x b => w.home x.1 b :=
    .slice rep ha fun array first stop d view => .found view.array rfl view.home
  exact read.congr rfl (by rw [bind_pure])

theorem Reads.sameReference (rep : Rep w s h) (hr : w.home r a) (hv : w.home v b) :
    Reads s h (Machine.sameReference? a b) (Engine.sameReference? r v) Eq := by
  refine (Reads.tag rep hr).bind ?_
  rintro t _ rfl
  refine (Reads.tag rep hv).bind ?_
  rintro u _ rfl
  have identity : decide (r = v) = decide (a = b) := decide_eq_decide.mpr (rep.eq_iff hr hv).symm
  have isNil {r : Ref} {a : Nat} (ha : w.home r a) :
      Reads s h (do return some (decide ((← Slice.array a) = unassigned)))
        (do return some (decide ((← sliceOf r).1 = unassigned))) Eq := by
    refine (Reads.sliceArray rep ha).bind fun x d hd => .pure ?_
    simp only [rep.eq_unassigned hd]
  split
  case h_1 => exact isNil hr
  case h_2 => exact isNil hv
  case h_5 =>
    refine Reads.congr (l := Pure.pure (if t = u && !t.isPrimitive then some (decide (r = v)) else none))
      (.pure (by rw [identity])) rfl (congrFun ?_ s)
    split <;> first
      | contradiction
      | rfl
  all_goals
    first
      | exact .pure (congrArg some identity)
      | split <;> first
        | contradiction
        | exact .pure (congrArg some identity)

/-- A failure of the computation has no address in it. -/
def Plain {α : Type} (x : Except MachineError α) : Prop := ∀ k, x = .error k → k.erase = k

theorem plain_ok {α : Type} {p : α} : Plain (.ok p) := fun _ no => nomatch no

theorem plain_error {α : Type} {k : MachineError} (same : k.erase = k) : Plain (.error k : Except MachineError α) := by
  rintro _ ⟨⟩
  exact same

theorem plain_comparison (op : BinaryOp) (order : Ordering) (t u : Tag) : Plain (Machine.comparison op order t u) := by
  unfold Machine.comparison
  split
  · exact plain_ok
  · exact plain_error rfl

theorem plain_ite {α : Type} {p : Prop} [Decidable p] {k : MachineError} {y : Except MachineError α} (same : k.erase = k)
    (other : Plain y) : Plain (if p then .error k else y) := by
  split
  · exact plain_error same
  · exact other

theorem plain_ints (op : BinaryOp) (x y : Int64) : Plain (Machine.onInts op x y) := by
  cases op
  case add | sub | mul | and | or | xor | andNot => exact plain_ok
  case div | rem => exact plain_ite (k := .divisionByZero) rfl plain_ok
  case shl | shr => exact plain_ite (k := .negativeShift) rfl plain_ok
  all_goals
    unfold Machine.onInts
    exact plain_comparison _ _ _ _

theorem plain_floats (op : BinaryOp) (x y : Binary64) : Plain (Machine.onFloats op x y) := by
  cases op <;> first
    | exact plain_ok
    | exact plain_error (k := Machine.notDefined _ _ _) rfl

theorem plain_bools (op : BinaryOp) (x y : Bool) : Plain (Machine.onBools op x y) := by
  cases op <;> first
    | exact plain_ok
    | exact plain_error (k := Machine.notDefined _ _ _) rfl

namespace Drives

/-- A result is computed and boxed. -/
theorem boxed {x : Except MachineError Machine.Primitive} (d : Describes w e m) (plain : Plain x) :
    Drives w e m (Machine.ofExcept x >>= fun p => liftM p.box) (Engine.ofExcept x >>= fun p => liftM (Engine.box p))
      fun w' r a => w'.home r a := by
  cases x with
  | ok p => exact heap d (.boxed d.rep p)
  | error k => exact aborts d (plain k rfl)

theorem onReferences (d : Describes w e m) (hr : w.home r a) (hv : w.home v b) (op : BinaryOp) :
    Drives w e m (Machine.onReferences op a b) (Engine.onReferences op r v) fun w' x y => w' = w ∧ x = y := by
  refine read_bind d (.tag d.rep hr) ?_
  rintro t _ rfl
  refine read_bind d (.tag d.rep hv) ?_
  rintro u _ rfl
  cases op
  case eq | ne =>
    refine read_bind d (.sameReference d.rep hr hv) ?_
    rintro same _ rfl
    cases same with
    | some same => exact answer d ⟨rfl, rfl⟩
    | none => exact aborts d rfl
  all_goals exact aborts d rfl

theorem applyBinary (d : Describes w e m) (hr : Held w e.store r a) (hv : Held w e.store v b) (op : BinaryOp) :
    Drives w e m (Machine.applyBinary op a b) (Engine.applyBinary op r v) fun w' x y => w'.home x y := by
  refine read_bind d (.tag d.rep hr.home) ?_
  rintro t _ rfl
  refine read_bind d (.tag d.rep hv.home) ?_
  rintro u _ rfl
  have references : Drives w e m (do (← Machine.onReferences op a b).box) (do Engine.box (← Engine.onReferences op r v))
      fun w' x y => w'.home x y := by
    refine (onReferences d hr.home hv.home op).bind ?_
    rintro p e' _ m' _ d' _ ⟨rfl, rfl⟩
    exact heap d' (.boxed d'.rep p)
  cases t
  case int =>
    cases u
    case int =>
      refine read_bind d (.int d.rep hr.home) ?_
      rintro x _ rfl
      refine read_bind d (.int d.rep hv.home) ?_
      rintro y _ rfl
      exact boxed d (plain_ints op x y)
    all_goals exact references
  case float =>
    cases u
    case float =>
      refine read_bind d (.float d.rep hr.home) ?_
      rintro x _ rfl
      refine read_bind d (.float d.rep hv.home) ?_
      rintro y _ rfl
      exact boxed d (plain_floats op x y)
    all_goals exact references
  case bool =>
    cases u
    case bool =>
      refine read_bind d (.bool d.rep hr.home) ?_
      rintro x _ rfl
      refine read_bind d (.bool d.rep hv.home) ?_
      rintro y _ rfl
      exact boxed d (plain_bools op x y)
    all_goals exact references
  case string =>
    cases u
    case string =>
      by_cases add : op = .add
      · simp only [add, if_true]
        have concat : Tracks w e.store m.heap (Text.concat a b) (do newText ((← bytes r) ++ (← bytes v)))
            fun w' x y => w'.home x y := by
          refine .read_bind (.bytes d.rep hr.home) ?_
          rintro x _ rfl
          refine .read_bind (.bytes d.rep hv.home) ?_
          rintro y _ rfl
          exact makes (.newText d.rep _)
        refine (heap d concat).congr rfl ?_
        simp only [run_bind, Engine.run_store]
        cases bytes r e.store with
        | ok x s =>
          simp only
          cases bytes v s <;> rfl
        | error l s => rfl
      · simp only [add, if_false]
        refine read_bind d (.bytes d.rep hr.home) ?_
        rintro x _ rfl
        refine read_bind d (.bytes d.rep hv.home) ?_
        rintro y _ rfl
        exact boxed d (plain_comparison _ _ _ _)
    all_goals exact references
  all_goals exact references

theorem execBinary (d : Describes w e m) (hc : Held w e.store c n) (op : BinaryOp) :
    Drives w e m (Machine.execBinary n op) (Engine.execBinary c op) fun _ _ _ => True := by
  refine pop d hc fun v e₁ b m₁ w₁ d₁ keeps₁ hv => ?_
  refine pop d₁ (hc.keep keeps₁) fun r e₂ a m₂ w₂ d₂ keeps₂ hr => ?_
  refine (applyBinary d₂ hr (hv.keep keeps₂) op).bind fun x e₃ y m₃ w₃ d₃ keeps₃ hx => ?_
  exact push d₃ (((hc.keep keeps₁).keep keeps₂).keep keeps₃).home hx

theorem applyUnary (d : Describes w e m) (hr : w.home r a) (op : UnaryOp) :
    Drives w e m (Machine.applyUnary op a) (Engine.applyUnary op r) fun w' x y => w'.home x y := by
  refine read_bind d (.tag d.rep hr) ?_
  rintro t _ rfl
  have undefined : Drives w e m (Machine.abort (.invalidOperands op.symbol [t]) : MachineM Nat)
      (Engine.abort (.invalidOperands op.symbol [t]) : EngineM Ref) fun w' x y => w'.home x y := aborts d rfl
  have onInt {f : Int64 → Int64} : Drives w e m (do Scalar.newInt (f (← Scalar.int a)))
      (do newInt (f (← int r))) fun w' x y => w'.home x y := by
    refine read_bind d (.int d.rep hr) ?_
    rintro x _ rfl
    exact heap d (makes (.newInt d.rep _))
  cases op <;> cases t
  case neg.int | bitNot.int => exact onInt
  case neg.float =>
    refine read_bind d (.float d.rep hr) ?_
    rintro x _ rfl
    exact heap d (makes (.newFloat d.rep _))
  case not.bool =>
    refine read_bind d (.bool d.rep hr) ?_
    rintro x _ rfl
    exact heap d (makes (.newBool d.rep _))
  all_goals exact undefined

theorem execUnary (d : Describes w e m) (hc : Held w e.store c n) (op : UnaryOp) :
    Drives w e m (Machine.execUnary n op) (Engine.execUnary c op) fun _ _ _ => True := by
  refine pop d hc fun v e₁ b m₁ w₁ d₁ keeps₁ hv => ?_
  refine (applyUnary d₁ hv.home op).bind fun x e₂ y m₂ w₂ d₂ keeps₂ hx => ?_
  exact push d₂ ((hc.keep keeps₁).keep keeps₂).home hx

end Drives

end FiberMachine
