import FiberMachine.Proofs.Openings
import FiberMachine.Proofs.Refinement.Machines

/-!
# Calls, methods and printing

Calls, returns, methods, new contexts and printing follow the engine.
-/

namespace FiberMachine

open Ideal

variable {α β : Type} {w w' : World} {e : Engine} {m : Machine} {s : Store} {h : Heap} {r v c : Ref} {a b n : Nat}
  {xs : List Ref} {as : List Nat}

theorem Machine.lift_bind (look : HeapReader α) (k : α → HeapReader β) :
    (liftM (look >>= k) : MachineM β) = liftM look >>= fun x => liftM (k x) := by
  funext m
  rw [run_bind, run_reader, run_reader, HeapReader.run_bind]
  cases look m.heap with
  | ok x => exact (run_reader (k x) m).symm
  | error e => rfl

theorem Reads.returnsEmpty (rep : Rep w s h) (ha : w.home c a) :
    Reads s h (do Stack.isEmpty (← Context.returnStack a)) (Ideal.fiber c) fun f x => f.returns.isEmpty = x := by
  refine .fiber rep ha fun f has => ?_
  obtain ⟨_, as, is, _, _, homes, _⟩ := has.returns
  refine ⟨decide (as.length = 0), ?_, ?_⟩
  · simp only [HeapReader.run_bind, rep.returnStack has, Stack.isEmpty, is.length_eq rep.tidy, HeapReader.run_pure]
  · rw [← homes.length_eq]
    cases f.returns <;> rfl

namespace Drives

/-- Two observations of the heap for one of the store. -/
theorem read_twice {γ δ ζ : Type} {look : HeapReader γ} {look' : γ → HeapReader δ} {n : StoreM ζ} {Q : ζ → δ → Prop}
    {k : δ → MachineM α} {l : ζ → EngineM β} {R : World → β → α → Prop} (d : Describes w e m)
    (f : Reads e.store m.heap (look >>= look') n Q) (next : ∀ b a, Q b a → Drives w e m (k a) (l b) R) :
    Drives w e m (liftM look >>= fun x => liftM (look' x) >>= k) (liftM n >>= l) R :=
  (read_bind d f next).congr (by rw [Machine.lift_bind, bind_assoc]) rfl

theorem execLoadFunc (d : Describes w e m) (hc : Held w e.store c n) (pc entry arity : Nat) :
    Drives w e m (Machine.execLoadFunc n pc entry arity) (Engine.execLoadFunc c pc entry arity) fun _ _ _ => True := by
  refine read_bind d (.environment d.rep hc.home) fun f env henv => ?_
  exact heap_bind d (makes (.newCode d.rep entry arity pc henv)) fun r e₁ a m₁ w₁ d₁ keeps hr =>
    push d₁ (hc.keep keeps).home hr

theorem bindParameters (d : Describes w e m) (hr : Held w e.store r a) (held : List.Forall₂ (Held w e.store) xs as)
    (i : Nat) : Drives w e m (Machine.bindParameters a i as) (Engine.bindParameters r i xs) fun _ _ _ => True := by
  induction xs generalizing w e m as i with
  | nil =>
    cases held
    exact answer d trivial
  | cons v xs ih =>
    obtain ⟨b, bs, hv, rest, rfl⟩ := List.forall₂_cons_left_iff.mp held
    refine heap_bind d (.copy d.rep hv.home) fun x e₁ y m₁ w₁ d₁ keeps₁ hx => ?_
    have hr₁ := hr.keep keeps₁
    refine heap_bind d₁ (.setItem d₁.rep hr₁.home _ hx) fun _ e₂ _ m₂ w₂ d₂ keeps₂ _ => ?_
    exact ih d₂ (hr₁.keep keeps₂) (rest.imp fun _ _ held => (held.keep keeps₁).keep keeps₂) (i + 1)

theorem layOut {k : Nat × Nat × Nat → MachineM α} {l : Ref × Ref × Nat → EngineM β} {R : World → β → α → Prop} (d : Describes w e m)
    (hr : Held w e.store r a) (held : List.Forall₂ (Held w e.store) xs as)
    (next : ∀ v frame e' b x m' w' declaration, Describes w' e' m' → Keeps w e.store w' e'.store → Held w' e'.store v b →
      Held w' e'.store frame x → Drives w' e' m' (k (b, x, declaration)) (l (v, frame, declaration)) R) :
    Drives w e m (Machine.layOut a as >>= k) (Engine.layOut r xs >>= l) R := by
  rw [Machine.layOut, Engine.layOut, bind_assoc, bind_assoc]
  refine read_bind d (.arity d.rep hr.home) ?_
  rintro x _ rfl
  rw [← held.length_eq]
  by_cases differ : x.arity ≠ xs.length
  · simp only [differ, ne_eq, not_false_eq_true, if_true]
    exact aborts_bind d rfl
  simp only [differ, if_false, bind_assoc]
  refine protecting d (makes (.newSequence d.rep rfl _)) fun frame e₁ y m₁ w₁ d₁ keeps₁ hf => ?_
  have hr₁ := hr.keep keeps₁
  refine (bindParameters d₁ hf (held.imp fun _ _ held => held.keep keeps₁) 0).bind fun _ e₂ _ m₂ w₂ d₂ keeps₂ _ => ?_
  have hr₂ := hr₁.keep keeps₂
  have hf₂ := hf.keep keeps₂
  refine read_bind d₂ (.captured d₂.rep hr₂.home) fun x env henv => ?_
  refine protecting d₂ (makes (.extend d₂.rep henv hf₂.home)) fun v e₃ b m₃ w₃ d₃ keeps₃ hv => ?_
  refine read_bind d₃ (.declaration d₃.rep (hr₂.keep keeps₃).home) ?_
  rintro x _ rfl
  have hf₃ := hf₂.keep keeps₃
  refine noteOrigin d₃ hf₃.home fun m₄ d₄ => ?_
  exact next v frame e₃ b y m₄ w₃ _ d₄ ((keeps₁.trans keeps₂).trans keeps₃) hv hf₃

/-- A function is called. Its frame, and where it was declared, are the same. -/
theorem enter (d : Describes w e m) (hc : Held w e.store c n) (returnPc : Nat) (hr : Held w e.store r a)
    (held : List.Forall₂ (Held w e.store) xs as) :
    Drives w e m (Machine.enter n returnPc a as) (Engine.enter c returnPc r xs) fun w' p q => w'.home p.1 q.1 ∧ p.2 = q.2 := by
  refine read_bind d (.expect d.rep hr.home .func) fun _ _ _ => ?_
  refine layOut d hr held fun env frame e₃ b x m₃ w₃ declaration d₃ keeps₃ henv hf => ?_
  have hc₃ := hc.keep keeps₃
  have hr₃ := hr.keep keeps₃
  refine heap_bind d₃ (makes (.newMarker d₃.rep _)) fun x e₄ y m₄ w₄ d₄ keeps₄ hx => ?_
  have hc₄ := hc₃.keep keeps₄
  refine heap_bind d₄ (.pushReturn d₄.rep hc₄.home hx) fun _ e₅ _ m₅ w₅ d₅ keeps₅ _ => ?_
  have hc₅ := hc₄.keep keeps₅
  refine heap_bind d₅ (.enterEnvironment d₅.rep hc₅ ((henv.keep keeps₄).keep keeps₅).home)
    fun _ e₆ _ m₆ w₆ d₆ keeps₆ _ => ?_
  refine read_bind d₆ (.entry d₆.rep (((hr₃.keep keeps₄).keep keeps₅).keep keeps₆).home) ?_
  rintro code _ rfl
  refine heap_bind d₆ (.setPc d₆.rep (hc₅.keep keeps₆).home _) fun _ e₇ _ m₇ w₇ d₇ keeps₇ _ => ?_
  exact answer d₇ ⟨((((hf.keep keeps₄).keep keeps₅).keep keeps₆).keep keeps₇).home, rfl⟩

theorem expectArguments {k : Unit → MachineM α} {l : Unit → EngineM β} {R : World → β → α → Prop} (d : Describes w e m)
    (same : xs.length = as.length) (j : Nat) (next : Drives w e m (k ()) (l ()) R) :
    Drives w e m (Machine.expectArguments as j >>= k) (Engine.expectArguments xs j >>= l) R := by
  rw [Machine.expectArguments, Engine.expectArguments, ← same]
  by_cases differ : xs.length ≠ j
  · simp only [differ, ne_eq, not_false_eq_true, if_true]
    exact aborts_bind d rfl
  · simp only [differ, if_false]
    exact next

theorem wakeAll (d : Describes w e m) (homes : List.Forall₂ w.home xs as) :
    Drives w e m (Machine.wakeAll as) (Engine.wakeAll xs) fun _ x y => x = y := by
  unfold Machine.wakeAll Engine.wakeAll
  induction homes generalizing e m with
  | nil => exact answer d rfl
  | cons hx _ ih =>
    refine Follows.congr (k := Machine.wake _ >>= fun _ => _) (l := Engine.enqueue _ >>= fun _ => _)
      (wake d hx fun e' m' d' _ => ih d') ?_ ?_
    all_goals rw [List.forM, bind_assoc]

theorem callMethod (d : Describes w e m) (hc : Held w e.store c n) (hr : w.home r a) (method : String)
    (held : List.Forall₂ (Held w e.store) xs as) :
    Drives w e m (Machine.callMethod n a method as) (Engine.callMethod c r method xs) fun _ x y => x = y := by
  refine read_bind d (.tag d.rep hr) ?_
  rintro t _ rfl
  have same := held.length_eq
  split
  case h_1 =>
    refine expectArguments d same 1 ?_
    have first : w.home (xs.headD unassigned) (as.headD unassigned) := by
      cases held with
      | nil => exact d.rep.nil
      | cons hx _ => exact hx.home
    refine read_bind d (.expectInt d.rep first) ?_
    rintro delta _ rfl
    refine heap_bind d (.addToGroup d.rep hr delta) ?_
    rintro ys e₁ bs m₁ _ d₁ _ ⟨rfl, homes⟩
    exact wakeAll d₁ homes
  case h_2 =>
    refine expectArguments d same 0 ?_
    refine heap_bind d (.addToGroup d.rep hr (-1)) ?_
    rintro ys e₁ bs m₁ _ d₁ _ ⟨rfl, homes⟩
    exact wakeAll d₁ homes
  case h_3 =>
    refine expectArguments d same 0 ?_
    refine heap_bind d (.waitFor d.rep hr hc.home) ?_
    rintro waits e₁ _ m₁ w₁ d₁ _ rfl
    cases waits with
    | true => exact note d₁ fun m₂ d₂ => answer d₂ rfl
    | false => exact answer d₁ rfl
  case h_4 =>
    first
      | exact aborts d rfl
      | split <;> first
        | contradiction
        | exact aborts d rfl

/-- A function or a method is called. The frame that is opened, if one is, and where it was declared, are the same. -/
theorem openCall (d : Describes w e m) (hc : Held w e.store c n) (returnPc argc : Nat) :
    Drives w e m (Machine.openCall n returnPc argc) (Engine.openCall c returnPc argc) fun w' x y =>
      x.1 = y.1 ∧ Option.Rel (fun p q => w'.home p.1 q.1 ∧ p.2 = q.2) x.2 y.2 := by
  refine popMany argc d hc fun xs e₁ as m₁ w₁ d₁ keeps₁ held₁ => ?_
  have hc₁ := hc.keep keeps₁
  refine pop d₁ hc₁ fun r e₂ a m₂ w₂ d₂ keeps₂ hr => ?_
  have hc₂ := hc₁.keep keeps₂
  have held₂ := held₁.imp fun _ _ held => held.keep keeps₂
  refine read_bind d₂ (.tag d₂.rep hr.home) ?_
  rintro t _ rfl
  by_cases bound : t = .method
  · simp only [bound, if_true]
    refine read_bind d₂ (.receiver d₂.rep hr.home) fun x b hb => ?_
    refine read_bind d₂ (.methodName d₂.rep hr.home) fun y k hk => ?_
    refine read_bind d₂ (.textOf d₂.rep hk) ?_
    rintro bs _ rfl
    exact (callMethod d₂ hc₂ hb _ held₂).bind fun _ _ _ _ _ d₃ _ same => answer d₃ ⟨same, .none⟩
  · simp only [bound, if_false]
    exact (enter d₂ hc₂ returnPc hr held₂).bind fun _ _ _ _ _ d₃ _ same => answer d₃ ⟨rfl, .some same⟩

theorem execCall (d : Describes w e m) (hc : Held w e.store c n) (returnPc argc : Nat) :
    Drives w e m (Machine.execCall n returnPc argc) (Engine.execCall c returnPc argc) fun _ x y => x = y := by
  rw [Machine.execCall_eq, Engine.execCall_eq]
  exact (openCall d hc returnPc argc).bind fun _ _ _ _ _ d' _ same => answer d' same.1

theorem unwind (d : Describes w e m) (hc : Held w e.store c n) (k : Nat) :
    Drives w e m (Machine.unwind n k) (Engine.unwind c k) fun _ x y => x = y := by
  induction k generalizing w e m with
  | zero => exact aborts d rfl
  | succ k ih =>
    refine read_twice d (.returnsEmpty d.rep hc.home) ?_
    rintro f _ rfl
    cases f.returns.isEmpty with
    | true => exact aborts_bind d rfl
    | false =>
      refine heap_bind d (.popReturn d.rep hc.home) ?_
      rintro v e₁ b m₁ _ d₁ keeps₁ ⟨rfl, hv⟩
      have hc₁ := hc.keep keeps₁
      refine read_bind d₁ (.tag d₁.rep hv) ?_
      rintro t _ rfl
      cases t
      case environment =>
        exact heap_bind d₁ (.setEnvironment d₁.rep hc₁.home hv) fun _ e₂ _ m₂ w₂ d₂ keeps₂ _ => ih d₂ (hc₁.keep keeps₂)
      case callRef =>
        refine read_bind d₁ (.target d₁.rep hv) ?_
        rintro pc _ rfl
        cases pc with
        | some pc => exact heap_bind d₁ (.setPc d₁.rep hc₁.home pc) fun _ e₂ _ m₂ w₂ d₂ _ _ => answer d₂ rfl
        | none => exact answer d₁ rfl
      all_goals exact aborts d₁ rfl

theorem execReturn (d : Describes w e m) (hc : Held w e.store c n) :
    Drives w e m (Machine.execReturn n) (Engine.execReturn c) fun _ x y => x = y := by
  refine read_twice d (.returnsLength d.rep hc.home) ?_
  rintro f _ rfl
  exact unwind d hc _

theorem execLoadMethod (d : Describes w e m) (hc : Held w e.store c n) (method : String) :
    Drives w e m (Machine.execLoadMethod n method) (Engine.execLoadMethod c method) fun _ _ _ => True := by
  refine pop d hc fun r e₁ a m₁ w₁ d₁ keeps₁ hr => ?_
  exact heap_bind d₁ (.newMethod d₁.rep hr.home method) fun v e₂ b m₂ w₂ d₂ keeps₂ hv =>
    push d₂ ((hc.keep keeps₁).keep keeps₂).home hv

theorem execCallMethod (d : Describes w e m) (hc : Held w e.store c n) (method : String) (argc : Nat) :
    Drives w e m (Machine.execCallMethod n method argc) (Engine.execCallMethod c method argc) fun _ x y => x = y := by
  refine popMany argc d hc fun xs e₁ as m₁ w₁ d₁ keeps₁ held₁ => ?_
  have hc₁ := hc.keep keeps₁
  refine pop d₁ hc₁ fun r e₂ a m₂ w₂ d₂ keeps₂ hr => ?_
  exact callMethod d₂ (hc₁.keep keeps₂) hr.home method (held₁.imp fun _ _ held => held.keep keeps₂)

theorem freshId (d : Describes w e m) {k : Nat → MachineM α} {l : Nat → EngineM β} {R : World → β → α → Prop}
    (next : ∀ id e' m', Describes w e' m' → Keeps w e.store w e'.store → Drives w e' m' (k id) (l id) R) :
    Drives w e m (Machine.freshId >>= k) (Engine.freshId >>= l) R := by
  refine Follows.congr (k := fun _ => k m.nextId { m with nextId := m.nextId + 1 })
    (l := fun _ => l e.nextId { e with nextId := e.nextId + 1 }) ?_ rfl rfl
  rw [d.nextId]
  have d' : Describes w { e with nextId := e.nextId + 1 } { m with nextId := e.nextId + 1 } := { d with nextId := rfl }
  exact next _ _ _ d' .refl

/-- A function is called in a context of its own. Its frame, and where it was declared, are the same. -/
theorem openContext (d : Describes w e m) (hc : Held w e.store c n) (argc : Nat) :
    Drives w e m (Machine.openContext n argc) (Engine.openContext c argc) fun w' p q => w'.home p.1 q.1 ∧ p.2 = q.2 := by
  refine popMany argc d hc fun xs e₁ as m₁ w₁ d₁ keeps₁ held₁ => ?_
  refine pop d₁ (hc.keep keeps₁) fun r e₂ a m₂ w₂ d₂ keeps₂ hr => ?_
  refine read_bind d₂ (.expect d₂.rep hr.home .func) fun _ _ _ => ?_
  refine layOut d₂ hr (held₁.imp fun _ _ held => held.keep keeps₂) fun env frame e₃ b x m₃ w₃ declaration d₃ keeps₃ henv hf => ?_
  refine freshId d₃ fun id e₄ m₄ d₄ keeps₄ => ?_
  refine read_bind d₄ (.entry d₄.rep ((hr.keep keeps₃).keep keeps₄).home) ?_
  rintro code _ rfl
  refine heap_bind d₄ (makes (.newContext d₄.rep (henv.keep keeps₄).home _ _)) fun child e₅ x m₅ w₅ d₅ keeps₅ hx => ?_
  have listed : Safe Any (liftM (Ideal.registerContext child) : EngineM Unit) e₅ fun _ e' => child ∈ e'.store.contexts :=
    Engine.safe_store (by exact List.mem_append_right _ (List.mem_singleton_self child))
  refine (heap d₅ (.registerContext d₅.rep hx)).bind_run listed ?_
  rintro _ e₆ _ m₆ _ d₆ keeps₆ rfl known
  have held : Held _ e₆.store child x := .contexts hx known
  refine heap_bind d₆ (makes (.newMarker d₆.rep none)) fun y e₇ z m₇ w₇ d₇ keeps₇ hy => ?_
  have held₇ := held.keep keeps₇
  refine heap_bind d₇ (.pushReturn d₇.rep held₇.home hy) fun _ e₈ _ m₈ w₈ d₈ keeps₈ _ => ?_
  have hf₈ := ((((hf.keep keeps₄).keep keeps₅).keep keeps₆).keep keeps₇).keep keeps₈
  refine enqueue (v := "spawn") d₈ (held₇.keep keeps₈).home fun e₉ m₉ d₉ keeps₉ => ?_
  exact note d₉ fun m₁₀ d₁₀ => answer d₁₀ ⟨(hf₈.keep keeps₉).home, rfl⟩

theorem execGo (d : Describes w e m) (hc : Held w e.store c n) (argc : Nat) :
    Drives w e m (Machine.execGo n argc) (Engine.execGo c argc) fun _ _ _ => True := by
  rw [Machine.execGo_eq, Engine.execGo_eq]
  exact (openContext d hc argc).bind fun _ _ _ _ _ d' _ _ => answer d' trivial

/-- Corresponding observations are made one after the other. -/
theorem mapM_bind {γ δ : Type} {f : Nat → HeapReader γ} {g : Ref → StoreM δ} {Q : δ → γ → Prop} {k : List γ → MachineM α}
    {l : List δ → EngineM β} {R : World → β → α → Prop} (d : Describes w e m)
    (each : List.Forall₂ (fun r a => Reads e.store m.heap (f a) (g r) Q) xs as)
    (next : ∀ ys bs, List.Forall₂ Q ys bs → Drives w e m (k bs) (l ys) R) :
    Drives w e m ((as.mapM fun a => (liftM (f a) : MachineM γ)) >>= k) ((xs.mapM fun r => (liftM (g r) : EngineM δ)) >>= l)
      R := by
  induction each generalizing k l with
  | nil => exact next [] [] .nil
  | cons hx _ ih =>
    rw [List.mapM_cons, List.mapM_cons, bind_assoc, bind_assoc]
    refine read_bind d hx fun y b q => ?_
    simp only [bind_assoc, pure_bind]
    exact ih fun ys bs qs => next (y :: ys) (b :: bs) (.cons q qs)

theorem execPrint (d : Describes w e m) (hc : Held w e.store c n) (argc : Nat) (newline : Bool) :
    Drives w e m (Machine.execPrint n argc newline) (Engine.execPrint (w.capacity + 1) c argc newline)
      fun _ _ _ => True := by
  refine popMany argc d hc fun xs e₁ as m₁ w₁ d₁ keeps₁ held₁ => ?_
  rw [← keeps₁.capacity]
  refine mapM_bind (Q := Shown) d₁ (held₁.imp fun _ _ held => .display d₁.rep held.home) fun ys bs shown => ?_
  refine Matches.ok (Q := fun _ _ _ => True) w₁ { d₁ with output := ?_ } .refl trivial
  exact d₁.output.append (.map shown fun parts => if newline then " ".intercalate parts ++ "\n" else String.join parts)

end Drives

end FiberMachine
