import FiberMachine.Proofs.Ideal.Grouping
import FiberMachine.Proofs.Openings

/-!
# Who makes frames and closures

Four instructions open a frame, one frame each, and one makes a closure. A frame that is opened becomes the innermost one of an
environment: that of the context itself, of a new context, or of a request.
-/

namespace FiberMachine

/-- Whether the instruction may make a frame or a closure. -/
def Instruction.makesNamed : Instruction → Bool
  | .enterScope _ | .loadFunc _ _ | .call _ | .selectRecv _ _ | .go _ => true
  | _ => false

namespace Ideal

/-- Frames and closures: variables get their names from what has made these objects. -/
def Obj.isNamed : Obj → Bool
  | .func _ => true
  | .sequence t _ => t = .frame
  | _ => false

/-- All kinds but frames and closures. -/
abbrev nameless (t : Tag) : Prop := t ≠ .frame ∧ t ≠ .func

variable {K : Tag → Prop} {P : Ref → Prop} {s s' s'' s₁ : Store} {o : Obj} {r r' c d x env callee : Ref} {t : Tag} {n pc argc slots target : Nat}
  {xs : List Ref}

theorem Obj.named_watched (named : o.isNamed = true) : o.isWatched = true ∧ ¬nameless o.tag := by
  cases o with
  | func k => exact ⟨rfl, fun no => no.2 rfl⟩
  | sequence t xs =>
    have frame : t = .frame := by simpa [isNamed] using named
    exact ⟨by simp [isWatched, frame], fun no => no.1 frame⟩
  | _ => cases named

namespace Store

/-- There is a frame or a closure of that name. -/
def IsNamed (s : Store) (r : Ref) : Prop := ∃ o, s.objects[r]? = some o ∧ o.isNamed = true

/-- The environment is one whose innermost frame is `r`. -/
def Ends (s : Store) (env r : Ref) : Prop := ∃ xs, s.objects[env]? = some (.sequence .environment (xs ++ [r]))

/-- The innermost frame in the environment of the context `c` is `r`. -/
def Innermost (s : Store) (c r : Ref) : Prop := ∃ f : Fiber, s.objects[c]? = some (.context f) ∧ s.Ends f.environment r

/-- Of the frames and closures only `r` is new. -/
structure Brings (s : Store) (r : Ref) (s' : Store) : Prop where
  new : s.objects.length ≤ r
  only : ∀ x, s'.IsNamed x → s.IsNamed x ∨ x = r

/-- A frame with `n` slots has been opened. -/
structure Opens (s : Store) (r : Ref) (n : Nat) (s' : Store) : Prop extends s.Brings r s' where
  frame : s'.Sized r .frame n

theorem IsNamed.lt (named : s.IsNamed r) : r < s.objects.length := by
  obtain ⟨o, ho, _⟩ := named
  exact (List.getElem?_eq_some_iff.mp ho).1

theorem isNamed_func {k : Code} (hk : s.objects[r]? = some (.func k)) : s.IsNamed r := ⟨_, hk, rfl⟩

theorem Sized.isNamed (sized : s.Sized r .frame n) : s.IsNamed r := by
  obtain ⟨xs, ho, _⟩ := sized
  exact ⟨_, ho, rfl⟩

/-- A closure that is not new has been the same before. -/
theorem Grows.func {k : Code} (grows : s.Grows s') (known : s.Known r) (hk : s'.objects[r]? = some (.func k)) :
    s.objects[r]? = some (.func k) := by
  obtain ⟨o, ho⟩ := known
  obtain ⟨o', ho', same⟩ := grows r o ho
  cases hk.symm.trans ho'
  cases o <;> cases same
  exact ho

theorem Sized.unique {k : Nat} (sized : s.Sized r t n) (sized' : s.Sized r t k) : n = k := by
  obtain ⟨xs, ho, rfl⟩ := sized
  obtain ⟨ys, ho', rfl⟩ := sized'
  cases ho.symm.trans ho'
  rfl

/-- A sequence that is not new has had as many items before. -/
theorem Sized.shrink (sized : s'.Sized r t n) (grows : s.Grows s') (known : s.Known r) : s.Sized r t n := by
  obtain ⟨o, ho⟩ := known
  obtain ⟨o', ho', same⟩ := grows r o ho
  obtain ⟨xs, hxs, rfl⟩ := sized
  cases hxs.symm.trans ho'
  cases o with
  | sequence u ys =>
    have old : s.Sized r u ys.length := ⟨ys, ho, rfl⟩
    have now := old.grow grows
    cases (Store.Sized.isTag ⟨xs, hxs, rfl⟩).unique now.isTag
    exact now.unique ⟨xs, hxs, rfl⟩ ▸ old
  | _ => cases same

theorem IsNamed.reroot (named : s.IsNamed r) (objects : s'.objects = s.objects) : s'.IsNamed r :=
  named.imp fun _ ⟨ho, is⟩ => ⟨objects ▸ ho, is⟩

namespace Edits

/-- A frame or closure is old when none are made. -/
theorem named (a : s.Edits nameless P s') (named : s'.IsNamed x) : s.IsNamed x := by
  obtain ⟨o, ho, is⟩ := named
  obtain ⟨watched, other⟩ := Obj.named_watched is
  obtain ⟨o', ho', same, watched'⟩ := (a.watched_origin ho watched).resolve_right fun new => other new.2
  refine ⟨o', ho', ?_⟩
  rw [← same] at other
  cases o' with
  | func => rfl
  | sequence => exact watched'
  | waitGroup | context => exact absurd ⟨nofun, nofun⟩ other
  | _ => cases watched'

theorem sized (a : s.Edits K P s') (k : s.Sized r t n) : s'.Sized r t n := by
  obtain ⟨xs, ho, rfl⟩ := k
  obtain ⟨ys, hy, same⟩ := a.sequence ho
  refine ⟨ys, hy, ?_⟩
  simp only [Obj.frozen, Obj.sequence.injEq, true_and] at same
  split at same
  · rw [same]
  · simpa using congrArg List.length same

/-- An environment does not change. -/
theorem ends (a : s.Edits K P s') (ends : s.Ends env r) : s'.Ends env r := by
  obtain ⟨xs, ho⟩ := ends
  obtain ⟨ys, hy, same⟩ := a.sequence ho
  simp only [Obj.frozen, if_true, Obj.sequence.injEq, true_and] at same
  exact ⟨xs, same ▸ hy⟩

end Edits

section

variable (others : s.OnlyAt c s')
include others

theorem OnlyAt.isNamed (isContext : s'.IsTag c .context) (named : s'.IsNamed x) : s.IsNamed x := by
  obtain ⟨o, ho, is⟩ := named
  refine ⟨o, (others x ?_).symm.trans ho, is⟩
  rintro rfl
  obtain ⟨f, hf, tagged⟩ := isContext
  cases ho.symm.trans hf
  exact (Obj.named_watched is).2 (tagged ▸ ⟨nofun, nofun⟩)

/-- No object is made. -/
theorem OnlyAt.length_le (known : s.Known c) : s'.objects.length ≤ s.objects.length := by
  refine List.getElem?_eq_none_iff.mp ((others _ ?_).trans (List.getElem?_eq_none (Nat.le_refl _)))
  rintro rfl
  exact Nat.lt_irrefl _ (Store.known_iff.mp known)

end

namespace Opens

/-- The frame itself. -/
theorem push : s.Opens s.objects.length n (s.push (.sequence .frame (List.replicate n 0))) where
  new := Nat.le_refl _
  only := by
    rintro x ⟨o, ho, is⟩
    rw [getElem?_push] at ho
    split at ho
    next same => exact .inr same
    · exact .inl ⟨o, ho, is⟩
  frame := ⟨_, by rw [getElem?_push, if_pos rfl], List.length_replicate⟩

/-- Other changes go before. -/
theorem before (old : ∀ x, s'.IsNamed x → s.IsNamed x) (longer : s.objects.length ≤ s'.objects.length) (a : s'.Opens r n s'') :
    s.Opens r n s'' where
  new := Nat.le_trans longer a.new
  only := fun x named => (a.only x named).imp_left (old x)
  frame := a.frame

/-- Other changes go after. -/
theorem edited (a : s.Opens r n s') (edits : s'.Edits nameless P s'') : s.Opens r n s'' where
  new := a.new
  only := fun x named => a.only x (edits.named named)
  frame := edits.sized a.frame

theorem reroot (a : s.Opens r n s') (objects : s''.objects = s'.objects) : s.Opens r n s'' :=
  a.edited (P := fun _ => True) (.single (.roots objects))

end Opens

theorem Innermost.reroot (innermost : s.Innermost c r) (objects : s'.objects = s.objects) : s'.Innermost c r := by
  unfold Innermost Ends
  rwa [objects]

/-- An environment is entered. -/
theorem Ends.innermost {f : Fiber} (ends : s.Ends env r) (hf : s.objects[c]? = some (.context f)) (environment : f.environment = env) :
    s.Innermost c r := ⟨f, hf, environment ▸ ends⟩

end Store

/-! ### Opening a frame -/

/-- The environment with one more frame. -/
theorem extend_ends : Safe Any (extend env r) s fun v s' => v = s.objects.length ∧ s'.Ends v r ∧ ∃ xs, s' = s.push (.sequence .environment (xs ++ [r])) := by
  refine Safe.bind (Q := fun _ s' => s' = s) ?_ ?_
  · exact Safe.look_bind (fun _ _ => .pure rfl) fun _ => trivial
  · rintro xs _ rfl
    exact Safe.add ⟨rfl, ⟨xs, by rw [Store.getElem?_push, if_pos rfl]⟩, xs, rfl⟩

namespace Engine

variable {e e' : Engine} {i : Instruction} {depth : Nat}

/-- Something is made and protected. -/
theorem protecting_bind {α : Type} {m : StoreM Ref} {k : Ref → EngineM α} {R : Ref → Store → Prop} {Q : α → Engine → Prop}
    (made : Safe Any m e.store R) (next : ∀ r s₁ e₁, R r s₁ → e₁.store.objects = s₁.objects → Safe Any (k r) e₁ Q) :
    Safe Any (protecting m >>= k) e Q := by
  unfold protecting
  rw [bind_assoc]
  exact store_bind made fun r s₁ found => next r s₁ _ found rfl

/-- A scope is entered: its frame is the innermost one of the context. -/
theorem openScope_opens : Safe Any (openScope c slots) e fun r e' => e.store.Opens r slots e'.store ∧ e'.store.Innermost c r := by
  refine protecting_bind (R := fun r s' => e.store.Opens r slots s') (Safe.add .push) fun r s₁ e₁ opens same => ?_
  have opens := opens.reroot same
  refine store_bind (fiber_seen.relax fun _ _ => trivial) ?_
  rintro f _ ⟨rfl, hf⟩
  refine store_bind (Safe.both extend_ends (Editing.extend (K := nameless) (P := fun _ => True) _)) ?_
  rintro env s₂ ⟨⟨_, ends, _⟩, edits⟩
  refine store_bind (Safe.both enterEnvironment_seen (Editing.enterEnvironment (K := nameless) (P := fun _ => True) trivial _)) ?_
  rintro _ _ ⟨⟨f', hf', rfl⟩, edits'⟩
  exact .pure ⟨(opens.edited edits).edited edits', (edits'.ends ends).innermost (Store.context_set hf' _) rfl⟩

/-- The environment of a call ends with the frame that holds the arguments. -/
structure LaysOut (s : Store) (callee : Ref) (n : Nat) (p : Ref × Nat) (s' : Store) : Prop where
  callee : ∃ k, s.objects[callee]? = some (.func k) ∧ k.arity = n ∧ p.2 = k.declaration
  opens : s.Opens p.1 n s'

theorem layOut_opens : Safe Any (layOut callee xs) e fun p e' => LaysOut e.store callee xs.length p.2 e'.store ∧ e'.store.Ends p.1 p.2.1 := by
  refine store_bind look_seen ?_
  rintro k _ ⟨rfl, seen⟩
  have hk := object_of_code seen
  dsimp only
  split
  · trivial
  next arity =>
    refine protecting_bind (R := fun r s' => e.store.Opens r k.arity s' ∧ s'.objects[callee]? = some (.func k))
      (Safe.add ⟨.push, Store.old_push hk⟩) ?_
    rintro r s₁ e₁ ⟨opens, hk₁⟩ same
    have opens := opens.reroot same
    refine Safe.bind (Editing.bindParameters (K := nameless) (P := fun _ => True) e₁) fun _ e₂ edits => ?_
    have hk₂ := edits.keeps (by simp) (by simp) (by simp) (same ▸ hk₁ :)
    refine store_bind look_seen ?_
    rintro k' _ ⟨rfl, seen'⟩
    refine protecting_bind (Safe.both extend_ends (Editing.extend (K := nameless) (P := fun _ => True) _)) ?_
    rintro env s₃ e₃ ⟨⟨_, ends, _⟩, edits'⟩ same'
    have reroot : s₃.Edits nameless (fun _ => True) e₃.store := .single (.roots same')
    refine store_bind look_seen ?_
    rintro k₃ _ ⟨rfl, seen₃⟩
    have hk₃ := (edits'.trans reroot).keeps (by simp) (by simp) (by simp) hk₂
    cases hk₃.symm.trans (object_of_code seen₃)
    have arity : k.arity = xs.length := Classical.not_not.mp arity
    exact .pure ⟨⟨⟨k, hk, arity, rfl⟩, arity ▸ (opens.edited edits).edited (edits'.trans reroot)⟩, reroot.ends ends⟩

/-- A function is called: the frame with the arguments is the innermost one of the context. -/
theorem enter_opens : Safe Any (enter c pc callee xs) e fun p e' =>
    LaysOut e.store callee xs.length p e'.store ∧ e'.store.Innermost c p.1 := by
  refine store_bind (expect_seen.relax fun _ _ => trivial) ?_
  rintro _ _ ⟨rfl, _⟩
  refine layOut_opens.bind ?_
  rintro ⟨env, p⟩ e₁ ⟨laid, ends⟩
  refine Safe.bind (Editing.onStore (K := nameless) (P := fun _ => True) Editing.newMarker e₁) fun m e₂ first => ?_
  refine Safe.bind (Editing.onStore (K := nameless) (P := fun _ => True) (Editing.pushReturn trivial) e₂) fun _ e₃ second => ?_
  refine store_bind (Safe.both enterEnvironment_seen (Editing.enterEnvironment (K := nameless) (P := fun _ => True) trivial _)) ?_
  rintro _ _ ⟨⟨f, hf, rfl⟩, third⟩
  have edits := (first.trans second).trans third
  refine store_bind look_seen ?_
  rintro k _ ⟨rfl, _⟩
  refine store_bind (Safe.both (update_seen.relax fun _ _ => trivial) (Editing.setPc (K := nameless) (P := fun _ => True) trivial _)) ?_
  rintro _ _ ⟨⟨g, hg, rfl⟩, last⟩
  cases (Store.context_set hf _).symm.trans hg
  exact .pure ⟨⟨laid.callee, laid.opens.edited (edits.trans last)⟩,
    ((edits.trans last).ends ends).innermost (Store.context_set hg _) rfl⟩

theorem LaysOut.onlyAt {p : Ref × Nat} (others : s.OnlyAt c s₁) (isContext : s₁.IsTag c .context)
    (longer : s.objects.length ≤ s₁.objects.length) (laid : LaysOut s₁ callee n p s') : LaysOut s callee n p s' where
  callee := by
    obtain ⟨k, hk, same⟩ := laid.callee
    refine ⟨k, (others callee ?_).symm.trans hk, same⟩
    rintro rfl
    exact nomatch isContext.unique ⟨_, hk, rfl⟩
  opens := laid.opens.before (fun _ => others.isNamed isContext) longer

/-- A function is called with `argc` arguments. -/
structure Calls (s : Store) (c : Ref) (argc : Nat) (p : Ref × Nat) (s' : Store) : Prop where
  laysOut : ∃ rest callee xs, s.Operands c (rest ++ callee :: xs) ∧ xs.length = argc ∧ LaysOut s callee argc p s'

/-- A function is called, or a method, which makes nothing. -/
theorem openCall_opens (turn : Turn e c) : Safe Any (openCall c pc argc) e fun p e' =>
    (p.2 = none ∧ (∃ rest callee xs, e.store.Operands c (rest ++ callee :: xs) ∧ xs.length = argc ∧ e.store.IsTag callee .method) ∧
      e'.store.objects.length ≤ e.store.objects.length) ∨
      ∃ q, p = (.proceed, some q) ∧ Calls e.store c argc q e'.store ∧ e'.store.Innermost c q.1 := by
  refine takeCall turn fun callee xs rest e₁ edits others scheduler before length after => ?_
  have isContext : e₁.store.IsTag c .context := by
    obtain ⟨f, hf, _⟩ := after
    exact ⟨_, hf, rfl⟩
  refine store_bind (tag_seen.relax fun _ _ => trivial) ?_
  rintro t _ ⟨rfl, is⟩
  split
  next method =>
    subst method
    refine store_bind look_seen ?_
    rintro _ _ ⟨rfl, _⟩
    refine store_bind look_seen ?_
    rintro _ _ ⟨rfl, _⟩
    refine store_bind look_seen ?_
    rintro _ _ ⟨rfl, _⟩
    refine Safe.bind callMethod_invoked fun o e' invoked => .pure (.inl ⟨rfl, ⟨rest, callee, xs, before, length, ?_⟩, ?_⟩)
    · obtain ⟨o, ho, tagged⟩ := is
      refine ⟨o, (others callee ?_).symm.trans ho, tagged⟩
      rintro rfl
      cases isContext.unique ⟨o, ho, tagged⟩
    · exact invoked.length ▸ others.length_le ⟨_, before.choose_spec.1⟩
  next =>
    refine Safe.bind enter_opens fun p e₂ ⟨laid, innermost⟩ => .pure (.inr ⟨p, rfl, ⟨rest, callee, xs, before, length, ?_⟩, innermost⟩)
    exact (length ▸ laid).onlyAt others isContext edits.length

/-- A function is called in a context of its own, which is registered last. -/
theorem openContext_opens (turn : Turn e c) : Safe Any (openContext c argc) e fun p e' => Calls e.store c argc p e'.store ∧
    ∃ d cs, e'.store.contexts = cs ++ [d] ∧ e'.store.Innermost d p.1 := by
  refine takeCall turn fun callee xs rest e₁ edits others scheduler before length after => ?_
  have isContext : e₁.store.IsTag c .context := by
    obtain ⟨f, hf, _⟩ := after
    exact ⟨_, hf, rfl⟩
  refine store_bind (expect_seen.relax fun _ _ => trivial) ?_
  rintro _ _ ⟨rfl, _⟩
  refine layOut_opens.bind ?_
  rintro ⟨env, p⟩ e₂ ⟨laid, ends⟩
  have laid := (length ▸ laid).onlyAt others isContext edits.length
  refine Safe.bind (Q := fun _ e' => e'.store = e₂.store) (.of_ok rfl rfl) fun id e₃ same => ?_
  rw [← same] at laid ends
  refine store_bind look_seen ?_
  rintro k _ ⟨rfl, _⟩
  refine store_bind (R := fun d s' => e₃.store.Edits nameless (fun _ => True) s' ∧
    ∃ f : Fiber, s'.objects[d]? = some (.context f) ∧ f.environment = env) (Safe.add ⟨?_, ?_⟩) ?_
  · exact .single (.make (by simp [Obj.Plain]) fun _ => ⟨nofun, nofun⟩)
  · exact ⟨_, by rw [Store.getElem?_push, if_pos rfl], rfl⟩
  rintro d s₃ ⟨made, f, hf, rfl⟩
  refine store_bind (R := fun _ s' => s'.objects = s₃.objects ∧ s'.contexts = s₃.contexts ++ [d]) ⟨rfl, rfl⟩ ?_
  rintro _ s₄ ⟨objects, contexts⟩
  have registered : s₃.Edits nameless (fun _ => True) s₄ := .single (.roots objects)
  refine store_bind (Safe.both (Safe.add (R := fun _ s' => s' = s₄.push (.number .callRef ReturnMarker.ending)) rfl)
    (Editing.newMarker (K := nameless) (P := fun _ => True) (p := none) s₄)) ?_
  rintro m _ ⟨rfl, marked⟩
  refine store_bind (Safe.both (pushReturn_seen.relax fun _ _ => trivial) (Editing.pushReturn (K := nameless) (P := fun _ => True) trivial _)) ?_
  rintro _ _ ⟨⟨g, hg, rfl⟩, returned⟩
  cases (Store.old_push (objects ▸ hf :)).symm.trans hg
  refine enqueue_effect.bind ?_
  rintro _ _ rfl
  have all := ((made.trans registered).trans marked).trans returned
  exact .pure ⟨⟨rest, callee, xs, before, length, laid.callee, laid.opens.edited all⟩, d, s₃.contexts, contexts,
    (all.ends ends).innermost (Store.context_set hg _) rfl⟩

/-- A case of a select is made, whose request is the top operand afterwards. -/
theorem openCase_opens : Safe Any (openCase c target) e fun r e' => e.store.Opens r 1 e'.store ∧
    ∃ below q p, e'.store.Operands c (below ++ [q]) ∧ e'.store.IsRequest q p ∧ p.frame = r := by
  refine Safe.bind (Editing.pop (K := nameless) (P := fun _ => True) trivial e) fun channel e₁ first => ?_
  refine Safe.bind (Editing.onStore (K := nameless) (P := fun _ => True) Editing.expectChannel e₁) fun _ e₂ second => ?_
  have before := first.trans second
  refine protecting_bind (R := fun r s' => e₂.store.Opens r 1 s') (Safe.add .push) fun r s₃ e₃ opens same => ?_
  have opens := (opens.before (fun _ => before.named) before.length).reroot same
  refine store_bind (fiber_seen.relax fun _ _ => trivial) ?_
  rintro f _ ⟨rfl, _⟩
  refine protecting_bind (Editing.extend (K := nameless) (P := fun _ => True) _) fun env s₄ e₄ edits same' => ?_
  have opens := (opens.edited edits).reroot same'
  refine store_bind (R := fun q s' => e₄.store.Edits nameless (fun _ => True) s' ∧ ∃ p, s'.IsRequest q p ∧ p.frame = r) (Safe.add ⟨?_, ?_⟩) ?_
  · exact .single (.make (by simp [Obj.Plain]) (by simp [Obj.isWatched]))
  · exact ⟨_, by rw [Store.IsRequest, Store.getElem?_push, if_pos rfl], rfl⟩
  rintro q s₅ ⟨made, p, hp, frame⟩
  refine store_bind (Safe.both (pushOperand_set.relax fun _ _ => trivial) (Editing.pushOperand (K := nameless) (P := fun _ => True) trivial _)) ?_
  rintro _ _ ⟨⟨g, hg, rfl⟩, pushed⟩
  have all := made.trans pushed
  exact .pure ⟨opens.edited all, g.operands, q, p, ⟨_, Store.context_set hg _, rfl⟩, pushed.keeps (by simp) (by simp) (by simp) hp, frame⟩

/-! ### Making a closure -/

/-- A closure is made, which is the top operand afterwards. -/
theorem execLoadFunc_brings {entry arity : Nat} : Safe Any (execLoadFunc c pc entry arity) e fun _ e' => ∃ r k below, e.store.Brings r e'.store ∧
    e'.store.Operands c (below ++ [r]) ∧ e'.store.objects[r]? = some (.func k) ∧ k.declaration = wrap pc ∧ k.arity = wrap arity := by
  refine store_bind (fiber_seen.relax fun _ _ => trivial) ?_
  rintro f _ ⟨rfl, _⟩
  refine store_bind (R := fun r s' => e.store.Brings r s' ∧ ∃ k, s'.objects[r]? = some (.func k) ∧ k.declaration = wrap pc ∧ k.arity = wrap arity)
    (Safe.add ⟨⟨Nat.le_refl _, ?_⟩, _, by rw [Store.getElem?_push, if_pos rfl], rfl, rfl⟩) ?_
  · rintro x ⟨o, ho, is⟩
    rw [Store.getElem?_push] at ho
    split at ho
    next same => exact .inr same
    · exact .inl ⟨o, ho, is⟩
  rintro r s₁ ⟨brings, k, hk, same⟩
  refine safe_store ((Safe.both (pushOperand_set.relax fun _ _ => trivial) (Editing.pushOperand (K := nameless) (P := fun _ => True) trivial _)).weaken ?_)
  rintro _ _ ⟨⟨g, hg, rfl⟩, pushed⟩
  refine ⟨r, k, g.operands, ⟨brings.new, fun x named => brings.only x (pushed.named named)⟩, ⟨_, Store.context_set hg _, rfl⟩, ?_, same⟩
  exact pushed.keeps (by simp) (by simp) (by simp) hk

/-! ### Other instructions -/

/-- Frames and closures are made by no other instructions than those of which it is said above. -/
theorem dispatch_named (turn : Turn e c) (plain : i.makesNamed = false) :
    Safe Any (dispatch depth c pc i) e fun _ e' => ∀ x, e'.store.IsNamed x → x < e.store.objects.length := by
  have edits {m : EngineM (Outcome × List Event)} (editing : Editing nameless (fun _ => True) Engine.store m) :
      Safe Any m e fun _ e' => ∀ x, e'.store.IsNamed x → x < e.store.objects.length :=
    (editing e).weaken fun _ _ edits _ named => (edits.named named).lt
  cases i with
  | enterScope | loadFunc | call | selectRecv | go => cases plain
  | callMethod method n =>
    refine Safe.bind (execCallMethod_called turn) ?_
    rintro o e' ⟨g, xs, _, _, others, _, _, invoked⟩
    refine .pure fun x named => Nat.lt_of_lt_of_le named.lt ?_
    exact invoked.length ▸ others.length_le (turn.active.isContext.known)
  | _ => exact edits (by unfold dispatch; grind)

end Engine

end Ideal

end FiberMachine
