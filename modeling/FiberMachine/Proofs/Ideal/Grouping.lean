import FiberMachine.Proofs.Ideal.Reaching

/-!
# What instructions do to wait groups

An instruction makes wait groups, or it calls a method of one, or it leaves them all as they are.
-/

namespace FiberMachine

/-- Whether the instruction makes wait groups. -/
def Instruction.makesGroups : Instruction → Bool
  | .loadDefault kind | .makeSlice kind _ => kind = .waitGroup
  | _ => false

namespace Ideal

variable {K : Tag → Prop} {P : Ref → Prop} {s s' s₁ : Store} {c d g q v x : Ref} {w : Word} {l xs qs : List Ref} {n : Nat} {u : Direction}
  {a? : Option Ref} {b? : Option Nat}

/-! ### Channels -/

namespace Editing

@[grind ←] theorem complete (all : ∀ x, P x) : Editing K P id (Ideal.complete q a?) := by
  have resume (r : Request) : Editing K P id (do
      Ideal.setPc r.context (← Ideal.request q).resume
      Ideal.cancelWaits r.context
      Ideal.setBlocked r.context false
      return r.context) := by
    have mine := all r.context
    exact .bind request fun _ => .bind (setPc mine) fun _ => .bind (cancelWaits mine) fun _ => .bind (setBlocked mine) fun _ => .pure _
  refine .withRoots (.bind request fun r => .bind expectRegistered fun _ => ?_)
  cases a? with
  | none => exact resume r
  | some v => exact .bind (deliver (all _)) fun _ => resume r

@[grind ←] theorem trySend (all : ∀ x, P x) : Editing K P id (Ideal.trySend d v) := by grind [Ideal.trySend]

@[grind ←] theorem tryRecv (all : ∀ x, P x) : Editing K P id (Ideal.tryRecv d) := by
  refine .bind popBuffer fun popped => ?_
  cases popped with
  | some value =>
    refine .bind takeWaiter fun found => ?_
    cases found with
    | none => exact .pure _
    | some q => exact .bind request fun _ => .bind tryPush fun _ => .bind (withRoots (complete all)) fun _ => .pure _
  | none =>
    refine .bind takeWaiter fun found => ?_
    cases found with
    | none => exact .pure _
    | some q => exact .bind request fun _ => .bind (withRoots (complete all)) fun _ => .pure _

@[grind ←] theorem tryCase (all : ∀ x, P x) : Editing K P id (Engine.tryCase q) := by
  refine .bind request fun r => ?_
  dsimp only
  split
  · exact .pure _
  refine .bind request fun r' => ?_
  split
  · refine .bind request fun _ => .bind (trySend all) fun p => ?_
    split
    · exact .bind expectWoken fun _ => .bind (complete all) fun _ => .pure _
    · exact .bind (complete all) fun _ => .pure _
    · exact .pure _
  · refine .bind (tryRecv all) fun p => ?_
    split
    · exact .bind expectWoken fun _ => .bind (complete all) fun _ => .pure _
    · exact .pure _

@[grind ←] theorem takeReady (all : ∀ x, P x) : Editing K P id (Engine.takeReady qs) := by
  induction qs with
  | nil => exact .pure _
  | cons q rest ih => grind [Engine.takeReady]

@[grind ←] theorem parkAny (all : ∀ x, P x) : Editing K P id (Ideal.park q) := fun _ => park fun _ _ => all _

@[grind ←] theorem parkAll (all : ∀ x, P x) : Editing K P id (Engine.parkAll qs) := by
  induction qs with
  | nil => exact .pure _
  | cons q rest ih => grind [Engine.parkAll]

@[grind ←] theorem parkRequest {r : Request} (all : ∀ x, P x) : Editing K P Engine.store (Engine.parkRequest r) := by grind [Engine.parkRequest]

@[grind ←] theorem execSend (all : ∀ x, P x) : Editing K P Engine.store (Engine.execSend c n) := by
  refine .bind (pop (all c)) fun value => .bind (pop (all c)) fun channel => .bind (.onStore expectChannel) fun given => ?_
  split
  · refine .bind (protecting copy) fun copied => .bind (.onStore (trySend all)) fun p => ?_
    split
    · exact .bind wakeOption fun _ => .pure _
    · exact .pure _
    · exact parkRequest all
  · exact blockForever (all c)

@[grind ←] theorem execRecv (all : ∀ x, P x) : Editing K P Engine.store (Engine.execRecv c n) := by
  refine .bind (pop (all c)) fun channel => .bind (.onStore expectChannel) fun given => ?_
  split
  · refine .bind (.onStore (tryRecv all)) fun p => ?_
    split
    · exact .bind (.onStore expectWoken) fun _ => .bind (push (all c)) fun _ => .bind wakeOption fun _ => .pure _
    · exact parkRequest all
  · exact blockForever (all c)

@[grind ←] theorem selectAmong (all : ∀ x, P x) : Editing K P Engine.store (Engine.selectAmong c qs b?) := by
  refine .bind (.onStore (takeReady all)) fun p => ?_
  split
  · exact .bind wakeOption fun _ => .pure _
  · cases b? with
    | some target => exact .bind (.onStore (setPc (all c))) fun _ => .pure _
    | none => exact .bind (.onStore (parkAll all)) fun _ => .bind (.onStore (setBlocked (all c))) fun _ => .pure _

@[grind ←] theorem execSelect (all : ∀ x, P x) : Editing K P Engine.store (Engine.execSelect c n b?) :=
  .bind (popMany (all c)) fun _ => .bind (forM fun _ => .onStore expect) fun _ => .bind shuffled fun _ => selectAmong all

@[grind ←] theorem execGo (all : ∀ x, P x) (may : K .frame) (new : K .context) : Editing K P Engine.store (Engine.execGo c n) := by
  refine .bind (popMany (all c)) fun _ => .bind (pop (all c)) fun _ => .bind (.onStore expect) fun _ => .bind (bindArguments may) fun _ =>
    .bind freshId fun _ => .bind (.onStore code) fun _ => .bind (.onStore (newContext new)) fun child => .bind (.onStore registerContext) fun _ =>
    .bind (.onStore newMarker) fun _ => .bind (.onStore (pushReturn (all _))) fun _ => enqueue

end Editing

/-! ### Making wait groups -/

/-- The wait groups `gs` have been made, and no other wait group has changed. -/
structure Store.Made (s : Store) (gs : List Ref) (s' : Store) : Prop where
  new : ∀ g ∈ gs, s.objects.length ≤ g ∧ s'.objects[g]? = some (.waitGroup 0 [])
  kept : ∀ (g : Ref) (w : Word) (l : List Ref), s.objects[g]? = some (.waitGroup w l) → s'.objects[g]? = some (.waitGroup w l)
  others : ∀ (g : Ref) (w : Word) (l : List Ref), s'.objects[g]? = some (.waitGroup w l) → s.objects[g]? = some (.waitGroup w l) ∨ g ∈ gs

namespace Store.Made

variable {gs hs : List Ref} {s'' : Store}

theorem of_edits (edits : s.Edits ungrouped P s') : s.Made [] s' :=
  ⟨by simp, fun _ _ _ => edits.group, fun _ _ _ ho => .inl ((edits.group_origin ho).resolve_right fun no => no.1 rfl)⟩

theorem trans (a : s.Made gs s') (longer : s.objects.length ≤ s'.objects.length)
    (kept : ∀ g ∈ gs, s''.objects[g]? = some (.waitGroup 0 [])) (b : s'.Made hs s'') : s.Made (gs ++ hs) s'' where
  new := by
    intro g hg
    rcases List.mem_append.mp hg with hg | hg
    · exact ⟨(a.new g hg).1, kept g hg⟩
    · exact ⟨Nat.le_trans longer (b.new g hg).1, (b.new g hg).2⟩
  kept := fun g w l ho => b.kept g w l (a.kept g w l ho)
  others := by
    intro g w l ho
    rcases b.others g w l ho with ho | hg
    · exact (a.others g w l ho).imp_right (List.mem_append_left _)
    · exact .inr (List.mem_append_right _ hg)

/-- Edits go before. -/
theorem before (edits : s.Edits ungrouped P s') (a : s'.Made gs s'') : s.Made gs s'' :=
  (of_edits edits).trans edits.length (by simp) a

/-- Edits go after. -/
theorem edited (a : s.Made gs s') (edits : s'.Edits ungrouped P s'') : s.Made gs s'' where
  new := fun g hg => ⟨(a.new g hg).1, edits.group (a.new g hg).2⟩
  kept := fun g w l ho => edits.group (a.kept g w l ho)
  others := fun g w l ho => a.others g w l ((edits.group_origin ho).resolve_right fun no => no.1 rfl)

end Store.Made

theorem newGroup_made : Safe Any newGroup s fun g s' => s' = s.push (.waitGroup 0 []) ∧ s.Made [g] s' := by
  refine Safe.add ⟨rfl, fun g hg => ?_, fun g w l => Store.old_push, fun g w l ho => ?_⟩
  · cases List.mem_singleton.mp hg
    exact ⟨Nat.le_refl _, by rw [Store.getElem?_push, if_pos rfl]⟩
  · rw [Store.getElem?_push] at ho
    split at ho
    next same => exact .inr (List.mem_singleton.mpr same)
    · exact .inl ho

theorem setSlot_seen {t : Tag} {i : Nat} (hx : s.objects[x]? = some (.sequence t xs)) :
    Safe Any (setSlot x i v) s fun _ s' => (i < xs.length ∧ t ≠ .environment) ∧ s' = s.set x (.sequence t (xs.set i v)) := by
  refine Safe.look_bind (fun p seen => ?_) fun _ => trivial
  cases hx.symm.trans (object_of_items seen)
  dsimp only
  split
  next room => exact Safe.replace ⟨room, rfl⟩
  · trivial

theorem window_seen {first stop : Nat} : Safe Any (window x first stop) s fun r s' =>
    r = s.objects.length ∧ s' = s.push (.slice x first stop) := by
  refine Safe.bind (Q := fun _ s' => s' = s) ?_ ?_
  · unfold itemsBehind
    split
    · exact .pure rfl
    · exact Safe.look_bind (fun _ _ => .pure rfl) fun _ => trivial
  · rintro _ _ rfl
    split
    · exact Safe.add ⟨rfl, rfl⟩
    · trivial

/-- The instruction, which makes wait groups, has left `gs` on the operand stack: a wait group, or a slice of them. -/
inductive Store.Leaves (s : Store) (c : Ref) : Instruction → List Ref → Prop
  | single {g : Ref} {rest : List Ref} (operands : s.Operands c (rest ++ [g])) : Leaves s c (.loadDefault .waitGroup) [g]
  | slice {r array : Ref} {first stop : Nat} {gs rest : List Ref} {hasCap : Bool} (operands : s.Operands c (rest ++ [r]))
      (hr : s.objects[r]? = some (.slice array first stop)) (ha : s.objects[array]? = some (.sequence .array gs)) :
      Leaves s c (.makeSlice .waitGroup hasCap) gs

namespace Engine

variable {e : Engine} {b : Bool}

/-- The rest of an array is filled with new wait groups. -/
theorem fillZero_made {t : Tag} {i : Nat} (hx : e.store.objects[x]? = some (.sequence t xs)) (size : i + n = xs.length) :
    Safe Any (fillZero x .waitGroup i n) e fun _ e' => ∃ gs, e'.store.objects[x]? = some (.sequence t (xs.take i ++ gs)) ∧
      e.store.Made gs e'.store ∧ e'.scheduler = e.scheduler := by
  induction n generalizing e i xs with
  | zero =>
    refine .pure ⟨[], ?_, .of_edits (P := fun _ => True) .refl, rfl⟩
    rw [List.append_nil, hx, List.take_of_length_le (by omega)]
  | succ n ih =>
    refine store_bind newGroup_made ?_
    rintro g s₁ ⟨rfl, made⟩
    refine store_bind (setSlot_seen (Store.old_push hx)) ?_
    rintro _ _ ⟨⟨room, other⟩, rfl⟩
    have old : (e.store.push (.waitGroup 0 [])).objects[x]? = some (.sequence t xs) := Store.old_push hx
    have edits : (e.store.push (.waitGroup 0 [])).Edits ungrouped (fun _ => True)
        ((e.store.push (.waitGroup 0 [])).set x (.sequence t (xs.set i g))) := .single (.items old (by simp [Obj.frozen, other]))
    have first := made.edited edits
    have items : ((e.store.push (.waitGroup 0 [])).set x (.sequence t (xs.set i g))).objects[x]? = some (.sequence t (xs.set i g)) := by
      rw [Store.getElem?_set ⟨_, old⟩, if_pos rfl]
    have rest := ih (e := { e with store := (e.store.push (.waitGroup 0 [])).set x (.sequence t (xs.set i g)) }) items
      (i := i + 1) (by rw [List.length_set]; omega)
    refine (Safe.both rest (Editing.fillZero (K := fun _ => True) (P := fun _ => True) (fun _ => trivial) _)).weaken ?_
    rintro _ e' ⟨⟨gs, items, more, scheduler⟩, later⟩
    refine ⟨g :: gs, ?_, ?_, scheduler⟩
    · rw [items, List.take_add_one, List.getElem?_set_self room, List.take_set_of_le (Nat.le_refl i)]
      simp
    · refine first.trans (by simp [Store.push, Store.set]) (fun g' hg => later.group (first.new g' hg).2) more

/-- A new wait group is put on the operand stack. -/
theorem loadGroup_made : Safe Any (load c newGroup) e fun _ e' =>
    ∃ gs, e'.store.Leaves c (.loadDefault .waitGroup) gs ∧ e.store.Made gs e'.store := by
  refine store_bind newGroup_made ?_
  rintro g s₁ ⟨rfl, made⟩
  refine safe_store ((pushOperand_set.relax fun _ _ => trivial).weaken ?_)
  rintro _ _ ⟨f, hf, rfl⟩
  have edits : (e.store.push (.waitGroup 0 [])).Edits ungrouped (· = c)
      ((e.store.push (.waitGroup 0 [])).set c (.context { f with operands := f.operands ++ [g] })) := .single (.registers rfl hf)
  exact ⟨[g], .single ⟨_, Store.context_set hf _, rfl⟩, made.edited edits⟩

/-- A slice of new wait groups is put on the operand stack. -/
theorem execMakeSlice_made : Safe Any (execMakeSlice c .waitGroup b) e fun _ e' =>
    ∃ gs, e'.store.Leaves c (.makeSlice .waitGroup b) gs ∧ e.store.Made gs e'.store := by
  have make (length : Int64) (size : Nat) (e₂ : Engine) (edits : e.store.Edits ungrouped (· = c) e₂.store) : Safe Any (do
      let array ← protecting (newSequence .array (List.replicate size 0))
      fillZero array .waitGroup 0 size
      load c (window array 0 length.toInt.toNat)) e₂ fun _ e' =>
        ∃ gs, e'.store.Leaves c (.makeSlice .waitGroup b) gs ∧ e.store.Made gs e'.store := by
    refine Safe.bind (Q := fun a e₃ => e₃.store.objects[a]? = some (.sequence .array (List.replicate size 0)) ∧
      e.store.Edits ungrouped (· = c) e₃.store) ?_ ?_
    · refine store_bind (R := fun a s' => s'.objects[a]? = some (.sequence .array (List.replicate size 0)) ∧ e.store.Edits ungrouped (· = c) s')
        (Safe.add ⟨by rw [Store.getElem?_push, if_pos rfl], edits.trans (.single (.make (by simp [Obj.Plain]) (by simp [Obj.isWatched])))⟩) fun a s' made => ?_
      exact store_bind (R := fun _ s'' => s''.objects = s'.objects) rfl fun _ s'' same => .pure ⟨same ▸ made.1, made.2.reroot same⟩
    rintro array e₃ ⟨ha, edits⟩
    refine (fillZero_made ha (by simp)).bind ?_
    rintro _ e₄ ⟨gs, items, made, _⟩
    rw [List.take_zero, List.nil_append] at items
    refine store_bind window_seen ?_
    rintro r _ ⟨rfl, rfl⟩
    refine safe_store ((pushOperand_set.relax fun _ _ => trivial).weaken ?_)
    rintro _ _ ⟨f, hf, rfl⟩
    have sliced : (e₄.store.push (.slice array 0 length.toInt.toNat)).objects[e₄.store.objects.length]? =
        some (.slice array 0 length.toInt.toNat) := by rw [Store.getElem?_push, if_pos rfl]
    have stays {r : Ref} {o : Obj} (other : ∀ g, o ≠ .context g) (ho : (e₄.store.push (.slice array 0 length.toInt.toNat)).objects[r]? = some o) :
        ((e₄.store.push (.slice array 0 length.toInt.toNat)).set c
          (.context { f with operands := f.operands ++ [e₄.store.objects.length] })).objects[r]? = some o :=
      (List.getElem?_set_ne fun same => other f (Option.some.inj ((same ▸ ho :).symm.trans hf))).trans ho
    have later : e₄.store.Edits ungrouped (· = c) ((e₄.store.push (.slice array 0 length.toInt.toNat)).set c
        (.context { f with operands := f.operands ++ [e₄.store.objects.length] })) :=
      .step (.single (.make (by simp [Obj.Plain]) (by simp [Obj.isWatched]))) (.registers rfl hf)
    exact ⟨gs, .slice ⟨_, Store.context_set hf _, rfl⟩ (stays (by simp) sliced) (stays (by simp) (Store.old_push items)),
      .before edits (made.edited later)⟩
  have finish (capacity? : Option Int64) (e₁ : Engine) (first : e.store.Edits ungrouped (· = c) e₁.store) : Safe Any (do
      let length ← popInt c
      if length < 0 then Engine.abort (.invalidLength .sliceLength length.toInt)
      let capacity := capacity?.getD length
      if capacity < length then Engine.abort (.invalidLength .sliceCapacity capacity.toInt)
      let size := capacity.toInt.toNat
      let array ← protecting (newSequence .array (List.replicate size 0))
      fillZero array .waitGroup 0 size
      load c (window array 0 length.toInt.toNat)) e₁ fun _ e' =>
        ∃ gs, e'.store.Leaves c (.makeSlice .waitGroup b) gs ∧ e.store.Made gs e'.store := by
    refine Safe.bind (Editing.popInt (K := ungrouped) (P := (· = c)) rfl e₁) fun length e₂ second => ?_
    dsimp only
    split
    · trivial
    · split
      · trivial
      · exact make _ _ e₂ (first.trans second)
  cases b with
  | true => exact Safe.bind (Editing.map (Editing.popInt (K := ungrouped) (P := (· = c)) rfl) e) fun _ e₁ first => finish _ e₁ first
  | false => exact finish _ e .refl

/-! ### Instructions -/

variable {i : Instruction} {o : Outcome} {e' : Engine} {depth pc : Nat}

/-- What an instruction does to wait groups. -/
inductive Grouped (e : Engine) (c : Ref) (i : Instruction) : Outcome → Engine → Prop
  | rests {o : Outcome} {e' : Engine} (plain : i.makesGroups = false) (silent : ∀ g method xs, ¬e.store.Invokes c i g method xs)
      (made : e.store.Made [] e'.store) : Grouped e c i o e'
  | makes {gs : List Ref} {e' : Engine} (leaves : e'.store.Leaves c i gs) (made : e.store.Made gs e'.store) : Grouped e c i .proceed e'
  | calls {g : Ref} {method : String} {xs : List Ref} {o : Outcome} {e' : Engine} (called : Called e c i g method xs o e') : Grouped e c i o e'

theorem dispatch_grouped (turn : Turn e c) : Safe Any (dispatch depth c pc i) e fun p e' => Grouped e c i p.1 e' := by
  have quiet {m : EngineM Outcome} {Q : Outcome → Engine → Prop} (inner : Safe Any m e Q) : Safe Any (quietly m) e fun p e' => Q p.1 e' :=
    inner.bind fun _ _ q => .pure q
  have proceeds {m : EngineM Unit} (made : Safe Any m e fun _ e' => ∃ gs, e'.store.Leaves c i gs ∧ e.store.Made gs e'.store) :
      Safe Any (proceeding m) e fun p e' => Grouped e c i p.1 e' :=
    quiet (made.bind fun _ _ ⟨_, leaves, made⟩ => .pure (.makes leaves made))
  have edits {m : EngineM (Outcome × List Event)} (plain : i.makesGroups = false) (silent : ∀ g method xs, ¬e.store.Invokes c i g method xs)
      (editing : Editing ungrouped (fun _ => True) Engine.store m) : Safe Any m e fun p e' => Grouped e c i p.1 e' :=
    (editing e).weaken fun _ _ edits => .rests plain silent (.of_edits edits)
  cases i with
  | call n =>
    refine quiet ((execCall_called turn).weaken ?_)
    rintro o e' (⟨edits, silent⟩ | ⟨_, _, _, called⟩)
    · exact .rests rfl silent (.of_edits edits)
    · exact .calls called
  | callMethod method n => exact quiet ((execCallMethod_called turn).weaken fun _ _ ⟨_, _, called⟩ => .calls called)
  | loadDefault kind =>
    by_cases group : kind = .waitGroup
    · subst group
      exact proceeds loadGroup_made
    · refine edits ?_ (by rintro _ _ _ ⟨⟩) (by unfold dispatch; grind)
      simp [Instruction.makesGroups, group]
  | makeSlice kind hasCap =>
    by_cases group : kind = .waitGroup
    · subst group
      exact proceeds execMakeSlice_made
    · refine edits ?_ (by rintro _ _ _ ⟨⟩) (by unfold dispatch; grind)
      simp [Instruction.makesGroups, group]
  | _ => exact edits rfl (by rintro _ _ _ ⟨⟩) (by unfold dispatch; grind)

end Engine

/-! ### What becomes of a wait group -/

namespace Store

variable {i : Instruction} {g' m : Ref} {method method' : String} {ys gs hs : List Ref} {f : Fiber}

theorem Binds.unique (a : s.Binds m g method) (b : s.Binds m g' method') : g = g' ∧ method = method' := by
  obtain ⟨name, bs, hm, hn, rfl⟩ := a
  obtain ⟨name', bs', hm', hn', rfl⟩ := b
  cases hm.symm.trans hm'
  cases hn.symm.trans hn'
  exact ⟨rfl, rfl⟩

/-- An instruction calls only one method. -/
theorem Invokes.unique (a : s.Invokes c i g method xs) (b : s.Invokes c i g' method' ys) : g = g' ∧ method = method' ∧ xs = ys := by
  have tops {m m' : Ref} {rest rest' : List Ref} (length : xs.length = ys.length) (k : s.Operands c (rest ++ m :: xs))
      (k' : s.Operands c (rest' ++ m' :: ys)) : m = m' ∧ xs = ys := by
    obtain ⟨_, tops⟩ := List.append_inj' (k.unique k') (by simp [length])
    exact List.cons_eq_cons.mp tops
  generalize same : i = j at b
  cases a with
  | direct k =>
    cases b with
    | direct k' =>
      rw [Instruction.callMethod.injEq] at same
      obtain ⟨rfl, rfl⟩ := tops same.2 k k'
      exact ⟨rfl, same.1, rfl⟩
    | bound => cases same
  | bound k binds =>
    cases b with
    | direct => cases same
    | bound k' binds' =>
      rw [Instruction.call.injEq] at same
      obtain ⟨rfl, rfl⟩ := tops same k k'
      obtain ⟨rfl, rfl⟩ := binds.unique binds'
      exact ⟨rfl, rfl, rfl⟩

theorem Asks.not_wait {delta : Int64} (a : s.Asks method xs delta) : method ≠ "Wait" := by cases a <;> decide

/-- A method adds only one number. -/
theorem Asks.unique {delta delta' : Int64} (a : s.Asks method xs delta) (b : s.Asks method xs delta') : delta = delta' := by
  generalize name : method = other at b
  generalize arguments : xs = ys at b
  cases a with
  | add hv =>
    cases b with
    | add hv' =>
      cases arguments
      cases hv.symm.trans hv'
      rfl
    | done => exact absurd name (by decide)
  | done =>
    cases b with
    | add => exact absurd name (by decide)
    | done => rfl

theorem Leaves.unique (a : s.Leaves c i gs) (b : s.Leaves c i hs) : gs = hs := by
  have top {x y : Ref} {rest rest' : List Ref} (k : s.Operands c (rest ++ [x])) (k' : s.Operands c (rest' ++ [y])) : x = y := by
    simpa using (List.append_inj' (k.unique k') rfl).2
  cases a with
  | single k =>
    cases b with
    | single k' => rw [top k k']
  | slice k hr ha =>
    cases b with
    | slice k' hr' ha' =>
      cases top k k'
      cases hr.symm.trans hr'
      cases ha.symm.trans ha'
      rfl

theorem Invokes.mono (operands : ∀ ys, s.Operands c ys → s'.Operands c ys)
    (stays : ∀ (r : Ref) (o : Obj), o.tag ≠ .context → s.objects[r]? = some o → s'.objects[r]? = some o) (a : s.Invokes c i g method xs) :
    s'.Invokes c i g method xs := by
  cases a with
  | direct k => exact .direct (operands _ k)
  | bound k binds =>
    obtain ⟨name, bs, hm, hn, same⟩ := binds
    exact .bound (operands _ k) ⟨name, bs, stays _ _ (by simp [Obj.tag]) hm, stays _ _ (by simp [Obj.tag]) hn, same⟩

/-- Fetching an instruction does not change what it calls. -/
theorem Invokes.fetched (hf : s.objects[c]? = some (.context f)) :
    (s.set c (.context { f with pc := n })).Invokes c i g method xs ↔ s.Invokes c i g method xs := by
  refine ⟨.mono (fun ys k => ?_) fun r o other ho => Store.unset ho fun f same => ?_, .mono (fun ys k => ?_) fun r o other ho => ?_⟩
  · obtain ⟨g, hg, rfl⟩ := k
    cases hg.symm.trans (Store.context_set hf _)
    exact ⟨f, hf, rfl⟩
  · exact other (same ▸ rfl)
  · obtain ⟨g, hg, rfl⟩ := k
    cases hg.symm.trans hf
    exact ⟨_, Store.context_set hf _, rfl⟩
  · refine (List.getElem?_set_ne fun same => other ?_).trans ho
    cases (same ▸ hf :).symm.trans ho
    rfl

end Store

namespace Engine

variable {e e' : Engine} {i : Instruction} {o : Outcome} {g' : Ref} {method : String} {gs : List Ref} {w' : Word} {l' : List Ref}

/-- What an instruction makes of the counter and the queue of the wait group `g`. -/
inductive Counts (s : Store) (c : Ref) (i : Instruction) (g : Ref) (w : Word) (l : List Ref) : Word → List Ref → Prop
  | rests (idle : ∀ method xs, s.Invokes c i g method xs → method = "Wait" ∧ w.toInt64 = 0) : Counts s c i g w l w l
  | adds {method : String} {xs : List Ref} {delta : Int64} (invokes : s.Invokes c i g method xs) (asks : s.Asks method xs delta)
      (nonneg : 0 ≤ w.toInt64.toInt + delta.toInt) (fits : w.toInt64.toInt + delta.toInt ≤ Int64.maxValue.toInt) :
      Counts s c i g w l (UInt64.ofNat (w.toInt64.toInt + delta.toInt).toNat) (if w.toInt64.toInt + delta.toInt = 0 then [] else l)
  | waits (invokes : s.Invokes c i g "Wait" []) (nonzero : w.toInt64 ≠ 0) : Counts s c i g w l w (l ++ [c])

/-- An object that is no context is the same before the operands of a call are taken and after. -/
theorem Called.stays {e₁ : Engine} {r : Ref} {k : Obj} (others : e.store.OnlyAt c e₁.store) (before : e.store.IsTag c .context)
    (after : e₁.store.IsTag c .context) (other : k.tag ≠ .context) : e.store.objects[r]? = some k ↔ e₁.store.objects[r]? = some k := by
  by_cases same : r = c
  · subst same
    exact ⟨fun hk => absurd (Store.IsTag.unique ⟨k, hk, rfl⟩ before) other, fun hk => absurd (Store.IsTag.unique ⟨k, hk, rfl⟩ after) other⟩
  · rw [others r same]

theorem Invoked.length (invoked : Invoked e c g method xs o e') : e'.store.objects.length = e.store.objects.length := by
  cases invoked with
  | adds _ _ added => exact added.released.others.length
  | passes => rfl
  | waits _ _ _ _ _ others => exact others.length

/-- What a method makes of the wait groups. -/
theorem Called.counts (called : Called e c i g' method xs o e') (members : ∀ x ∈ e.store.queue g', e.store.IsTag x .context)
    (before : e.store.IsTag c .context) (ho : e.store.objects[g]? = some (.waitGroup w l)) :
    ∃ w' l', e'.store.objects[g]? = some (.waitGroup w' l') ∧ Counts e.store c i g w l w' l' := by
  obtain ⟨invokes, edits, others, after, scheduler, invoked⟩ := called
  have stays {r : Ref} {k : Obj} (other : k.tag ≠ .context) := Called.stays (r := r) others before after other
  have idle (ne : g ≠ g') : ∀ method xs, e.store.Invokes c i g method xs → method = "Wait" ∧ w.toInt64 = 0 :=
    fun _ _ again => absurd (again.unique invokes).1 ne
  have here := (stays (by simp [Obj.tag])).mp ho
  have noContext {x : Ref} (hx : e.store.IsTag x .context) : g ≠ x := by
    rintro rfl
    cases hx.unique ⟨_, ho, rfl⟩
  cases invoked with
  | @adds _ _ woken w₁ l₁ delta _ ho₁ asks added =>
    by_cases same : g = g'
    · subst same
      cases here.symm.trans ho₁
      refine ⟨_, _, added.released.group, .adds invokes ?_ added.nonneg added.fits⟩
      cases asks with
      | add hv => exact .add ((stays (by simp [Obj.tag])).mpr hv)
      | done => exact .done
    · refine ⟨w, l, added.released.others.keeps g _ ?_ (by simp) here, .rests (idle same)⟩
      rintro (e | member)
      · exact same e
      · rw [added.woken] at member
        split at member
        · refine noContext (members g ?_) rfl
          rwa [Store.queue_of ((stays (by simp [Obj.tag])).mpr ho₁)]
        · cases member
  | passes ho₁ zero =>
    refine ⟨w, l, here, .rests fun method xs again => ?_⟩
    obtain ⟨rfl, rfl, _⟩ := again.unique invokes
    cases here.symm.trans ho₁
    exact ⟨rfl, zero⟩
  | waits ho₁ nonzero joined hc hc' others =>
    by_cases same : g = g'
    · subst same
      cases here.symm.trans ho₁
      exact ⟨_, _, joined, .waits invokes nonzero⟩
    · refine ⟨w, l, others.keeps g _ ?_ (by simp) here, .rests (idle same)⟩
      rintro (e | e)
      · exact same e
      · exact noContext before e

theorem Grouped.counts (grouped : Grouped e c i o e') (members : ∀ g', ∀ x ∈ e.store.queue g', e.store.IsTag x .context)
    (isContext : e.store.IsTag c .context) (ho : e.store.objects[g]? = some (.waitGroup w l)) :
    ∃ w' l', e'.store.objects[g]? = some (.waitGroup w' l') ∧ Counts e.store c i g w l w' l' := by
  cases grouped with
  | rests _ silent made => exact ⟨w, l, made.kept g w l ho, .rests fun _ _ invokes => absurd invokes (silent _ _ _)⟩
  | makes leaves made =>
    refine ⟨w, l, made.kept g w l ho, .rests fun _ _ invokes => ?_⟩
    cases leaves <;> cases invokes
  | calls called => exact called.counts (members _) isContext ho

/-- A wait group that is new has just been made. -/
theorem Grouped.new (grouped : Grouped e c i o e') (isContext : e.store.IsTag c .context) (unknown : ¬e.store.Known g)
    (ho : e'.store.objects[g]? = some (.waitGroup w l)) : ∃ gs, e'.store.Leaves c i gs ∧ g ∈ gs ∧ w = 0 ∧ l = [] := by
  cases grouped with
  | rests _ _ made => exact ((made.others g w l ho).elim (fun old => unknown ⟨_, old⟩) (by simp)).elim
  | @makes gs _ leaves made =>
    rcases made.others g w l ho with old | member
    · exact absurd ⟨_, old⟩ unknown
    · cases (made.new g member).2.symm.trans ho
      exact ⟨gs, leaves, member, rfl, rfl⟩
  | calls called =>
    obtain ⟨_, _, others, _, _, invoked⟩ := called
    obtain ⟨k, hk⟩ := Store.known_iff.mpr (invoked.length ▸ (List.getElem?_eq_some_iff.mp ho).1)
    refine absurd ?_ unknown
    by_cases same : g = c
    · exact same ▸ isContext.known
    · exact ⟨k, (others g same).symm.trans hk⟩

/-- The instruction makes wait groups, and goes on. -/
theorem Grouped.made (grouped : Grouped e c i o e') (makes : i.makesGroups = true) : o = .proceed ∧ ∃ gs, e'.store.Leaves c i gs := by
  cases grouped with
  | rests plain => rw [plain] at makes; cases makes
  | makes leaves => exact ⟨rfl, _, leaves⟩
  | calls called =>
    obtain ⟨invokes, _⟩ := called
    cases invokes <;> cases makes

/-- What has been made was not there before. -/
theorem Grouped.unknown (grouped : Grouped e c i o e') (leaves : e'.store.Leaves c i gs) (hg : g ∈ gs) : ¬e.store.Known g := by
  cases grouped with
  | rests plain => cases leaves <;> simp [Instruction.makesGroups] at plain
  | makes leaves' made =>
    cases leaves.unique leaves'
    intro known
    exact Nat.not_le.mpr (Store.known_iff.mp known) (made.new g hg).1
  | calls called =>
    obtain ⟨invokes, _⟩ := called
    cases leaves <;> cases invokes

theorem Grouped.called (grouped : Grouped e c i o e') (invokes : e.store.Invokes c i g method xs) : Called e c i g method xs o e' := by
  cases grouped with
  | rests _ silent => exact absurd invokes (silent _ _ _)
  | makes leaves => cases leaves <;> cases invokes
  | calls called =>
    have again := called
    obtain ⟨invokes', _⟩ := again
    obtain ⟨rfl, rfl, rfl⟩ := invokes.unique invokes'
    exact called

/-- What has been added to a wait group; if its counter is zero now, those who waited are ready. -/
theorem Called.adds (called : Called e c i g method xs o e') (ho : e.store.objects[g]? = some (.waitGroup w l)) (other : method ≠ "Wait")
    (isContext : e.store.IsTag c .context) : ∃ delta, e.store.Asks method xs delta ∧ 0 ≤ w.toInt64.toInt + delta.toInt ∧
      (w.toInt64.toInt + delta.toInt = 0 → o = .proceed ∧ e'.scheduler = { e.scheduler with ready := e.scheduler.ready ++ l } ∧
        ∀ (x : Ref) (f : Fiber), x ∈ l → x ≠ c → e.store.objects[x]? = some (.context f) → e'.store.objects[x]? = some (.context f.released)) := by
  obtain ⟨_, edits, others, after, scheduler, invoked⟩ := called
  have stays {r : Ref} {k : Obj} (other : k.tag ≠ .context) := Called.stays (r := r) others isContext after other
  cases invoked with
  | adds ho₁ asks added scheduler' =>
    cases ((stays (by simp [Obj.tag])).mp ho).symm.trans ho₁
    refine ⟨_, ?_, added.nonneg, fun zero => ⟨rfl, ?_, fun x f hx ne hf => ?_⟩⟩
    · cases asks with
      | add hv => exact .add ((stays (by simp [Obj.tag])).mpr hv)
      | done => exact .done
    · rw [scheduler', added.woken, if_pos zero, scheduler]
    · refine added.released.contexts x f ?_ ((others x ne).trans hf)
      rwa [added.woken, if_pos zero]
  | passes => exact absurd rfl other
  | waits => exact absurd rfl other

/-- Who waits for a wait group that is not at zero blocks, and is the last in its queue. -/
theorem Called.waits (called : Called e c i g "Wait" xs o e') (ho : e.store.objects[g]? = some (.waitGroup w l)) (nonzero : w.toInt64 ≠ 0)
    (isContext : e.store.IsTag c .context) : o = .block ∧ e'.scheduler = e.scheduler ∧ e'.store.objects[g]? = some (.waitGroup w (l ++ [c])) ∧
      ∃ f : Fiber, e'.store.objects[c]? = some (.context f) ∧ f.blocked = true := by
  obtain ⟨_, edits, others, after, scheduler, invoked⟩ := called
  have here := (Called.stays others isContext after (by simp [Obj.tag])).mp ho
  cases invoked with
  | adds _ asks => exact absurd rfl asks.not_wait
  | passes ho₁ zero =>
    cases here.symm.trans ho₁
    exact absurd zero nonzero
  | waits ho₁ _ joined _ blocked _ scheduler' =>
    cases here.symm.trans ho₁
    exact ⟨rfl, scheduler'.trans scheduler, joined, _, blocked, rfl⟩

theorem execute_grouped (turn : Turn e c) : Safe Any (execute depth c pc i) e fun p e' =>
    ∃ e₁, Grouped e c i p.1 e₁ ∧ e'.store.objects = e₁.store.objects ∧ e'.scheduler = e₁.scheduler :=
  execute_safe ((dispatch_grouped turn).weaken fun _ e' grouped => ⟨e', grouped, rfl, rfl⟩)

end Engine

/-! ### Steps -/

namespace Store

variable {i : Instruction} {method : String} {gs : List Ref} {f : Fiber}

theorem Leaves.reroot (a : s.Leaves c i gs) (objects : s'.objects = s.objects) : s'.Leaves c i gs := by
  cases a with
  | single k =>
    obtain ⟨f, hf, same⟩ := k
    exact .single ⟨f, objects ▸ hf, same⟩
  | slice k hr ha =>
    obtain ⟨f, hf, same⟩ := k
    exact .slice ⟨f, objects ▸ hf, same⟩ (objects ▸ hr) (objects ▸ ha)

theorem Asks.unfetched {delta : Int64} (a : (s.set c (.context { f with pc := n })).Asks method xs delta) : s.Asks method xs delta := by
  cases a with
  | add hv => exact .add (Store.unset hv nofun)
  | done => exact .done

end Store

namespace Course

variable {log events : List Event} {i : Instruction} {depth : Nat} {t t' : Course} {o : Outcome} {f : Fiber} {e : Engine} {gs : List Ref}
  {method : String}

namespace Executed

variable (executed : Executed depth t c f i o events e t')
include executed

theorem grouped : ∃ e₁, Engine.Grouped (t.fetchedEngine c f) c i o e₁ ∧ t'.engine.store.objects = e₁.store.objects ∧
    e.scheduler = e₁.scheduler := by
  obtain ⟨e₁, grouped, objects, scheduler⟩ := (Engine.execute_grouped executed.turning).ok executed.run
  exact ⟨e₁, grouped, executed.objects.trans objects, scheduler⟩

theorem isContext : (t.fetchedStore c f).IsTag c .context := ⟨_, Store.context_set executed.fiber _, rfl⟩

/-- What fetching an instruction does not change. -/
theorem fetched {k : Obj} (other : k.tag ≠ .context) : (t.fetchedStore c f).objects[g]? = some k ↔ t.engine.store.objects[g]? = some k := by
  refine ⟨fun hk => Store.unset hk fun f same => other (same ▸ rfl), fun hk => (List.getElem?_set_ne fun same => other ?_).trans hk⟩
  cases (same ▸ executed.fiber :).symm.trans hk
  rfl

/-- What a step makes of a wait group. -/
theorem counts (ho : t.engine.store.objects[g]? = some (.waitGroup w l)) :
    ∃ w' l', t'.engine.store.objects[g]? = some (.waitGroup w' l') ∧ Engine.Counts t.engine.store c i g w l w' l' := by
  obtain ⟨e₁, grouped, objects, _⟩ := executed.grouped
  have members (g' : Ref) : ∀ x ∈ (t.fetchedStore c f).queue g', (t.fetchedStore c f).IsTag x .context := by
    intro x member
    have typed := executed.turning.active.typed
    obtain ⟨w, l, hg⟩ := typed.canonical (Store.group_of_member member)
    exact typed.good g' _ hg x (Store.queue_of hg ▸ member)
  obtain ⟨w', l', ho', counts⟩ := grouped.counts members executed.isContext ((executed.fetched (by simp [Obj.tag])).mpr ho)
  refine ⟨w', l', objects ▸ ho', ?_⟩
  cases counts with
  | rests idle => exact .rests fun _ _ invokes => idle _ _ ((Store.Invokes.fetched executed.fiber).mpr invokes)
  | adds invokes asks nonneg fits => exact .adds ((Store.Invokes.fetched executed.fiber).mp invokes) asks.unfetched nonneg fits
  | waits invokes nonzero => exact .waits ((Store.Invokes.fetched executed.fiber).mp invokes) nonzero

/-- A wait group that is new has just been made. -/
theorem new_group (unknown : ¬t.engine.store.Known g) (ho : t'.engine.store.objects[g]? = some (.waitGroup w l)) :
    ∃ gs, t'.engine.store.Leaves c i gs ∧ g ∈ gs ∧ w = 0 ∧ l = [] := by
  obtain ⟨e₁, grouped, objects, _⟩ := executed.grouped
  have unknown' : ¬(t.fetchedStore c f).Known g := by simpa [Store.known_iff, fetchedStore, Store.set] using unknown
  obtain ⟨gs, leaves, member, same⟩ := grouped.new executed.isContext unknown' (objects ▸ ho)
  exact ⟨gs, leaves.reroot objects, member, same⟩

/-- An instruction that makes wait groups leaves them on the operand stack, and goes on. -/
theorem makes_groups (makes : i.makesGroups = true) : o = .proceed ∧ ∃ gs, t'.engine.store.Leaves c i gs := by
  obtain ⟨e₁, grouped, objects, _⟩ := executed.grouped
  obtain ⟨proceeds, gs, leaves⟩ := grouped.made makes
  exact ⟨proceeds, gs, leaves.reroot objects⟩

/-- What has just been made was not there before. -/
theorem unknown_group (leaves : t'.engine.store.Leaves c i gs) (hg : g ∈ gs) : ¬t.engine.store.Known g := by
  obtain ⟨e₁, grouped, objects, _⟩ := executed.grouped
  have unknown := grouped.unknown (leaves.reroot objects.symm) hg
  simpa [Store.known_iff, fetchedEngine, fetchedStore, Store.set] using unknown

/-- A method of a wait group has been called that adds to its counter; if it is zero now, those who waited are ready. -/
theorem adds (steady : Steady log t) (invokes : t.engine.store.Invokes c i g method xs) (other : method ≠ "Wait")
    (ho : t.engine.store.objects[g]? = some (.waitGroup w l)) : ∃ delta, t.engine.store.Asks method xs delta ∧
      0 ≤ w.toInt64.toInt + delta.toInt ∧ (w.toInt64.toInt + delta.toInt = 0 →
        t'.engine.scheduler.ready ++ t'.engine.scheduler.current.toList = t.engine.scheduler.dispatch.ready ++ l ++ [c] ∧
        ∀ (x : Ref) (f : Fiber), x ∈ l → t.engine.store.objects[x]? = some (.context f) →
          t'.engine.store.objects[x]? = some (.context f.released)) := by
  obtain ⟨e₁, grouped, objects, scheduler⟩ := executed.grouped
  have called := grouped.called ((Store.Invokes.fetched executed.fiber).mpr invokes)
  obtain ⟨delta, asks, nonneg, effect⟩ := called.adds ((executed.fetched (by simp [Obj.tag])).mpr ho) other executed.isContext
  refine ⟨delta, asks.unfetched, nonneg, fun zero => ?_⟩
  obtain ⟨rfl, same, released⟩ := effect zero
  rw [← scheduler] at same
  refine ⟨?_, fun x g hx hg => ?_⟩
  · have turn : e.scheduler.current = some c := by
      rw [same]
      exact executed.turn
    rw [(settle_proceed turn).ok executed.settled, same]
    rfl
  · have ne : x ≠ c := by
      rintro rfl
      have member : x ∈ t.engine.store.queue _ := (Store.queue_of ho).symm ▸ hx
      obtain ⟨blocked, _⟩ := steady.linked.wired.member _ _ member
      rw [Store.blockedAt, executed.running.idle] at blocked
      cases blocked
    exact objects ▸ released x g hx ne ((List.getElem?_set_ne ne.symm).trans hg)

/-- Who waits for a wait group that is not at zero blocks, and is the last in its queue. -/
theorem joins (invokes : t.engine.store.Invokes c i g "Wait" xs) (ho : t.engine.store.objects[g]? = some (.waitGroup w l))
    (nonzero : w.toInt64 ≠ 0) : t'.engine.scheduler.ready = t.engine.scheduler.dispatch.ready ∧ t'.engine.scheduler.current = none ∧
      t'.engine.store.objects[g]? = some (.waitGroup w (l ++ [c])) ∧
      ∃ f : Fiber, t'.engine.store.objects[c]? = some (.context f) ∧ f.blocked = true := by
  obtain ⟨e₁, grouped, objects, scheduler⟩ := executed.grouped
  have called := grouped.called ((Store.Invokes.fetched executed.fiber).mpr invokes)
  obtain ⟨rfl, same, joined, f', hf', blocked⟩ := called.waits ((executed.fetched (by simp [Obj.tag])).mpr ho) nonzero executed.isContext
  obtain ⟨ready, current⟩ := (settle_block).ok executed.settled
  refine ⟨?_, current, objects ▸ joined, f', objects ▸ hf', blocked⟩
  rw [ready]
  exact congrArg Scheduler.ready (scheduler.trans same)

end Executed

end Course

end Ideal

end FiberMachine
