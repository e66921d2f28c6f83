import Mathlib.Logic.Relation
import Mathlib.Order.WellFounded
import FiberMachine.Proofs.Ideal.Logic

/-!
# Typed stores

Whatever a program does, its objects refer to objects of the kinds that the machine expects, and no array is part
of itself. An object never changes its kind, so what is known of the kinds stays known. The communication
state of the contexts, channels and wait groups is kept apart: most actions leave it alone, and are called calm.
-/

namespace FiberMachine.Ideal

/-! ### Kinds -/

/-- What never changes of an object: environments do not change at all, arrays and frames keep their size. -/
def Obj.frozen : Obj → Obj
  | .sequence t xs => .sequence t (if t = .environment then xs else List.replicate xs.length 0)
  | .context f => .context ⟨0, [], [], 0, false, [], f.id⟩
  | .channel d => .channel ⟨d.capacity, [], []⟩
  | .waitGroup _ _ => .waitGroup 0 []
  | o => o

theorem Obj.frozen_tag (o : Obj) : o.frozen.tag = o.tag := by cases o <;> rfl

namespace Store

/-- There is an object of that name. -/
def Known (s : Store) (r : Ref) : Prop := ∃ o, s.objects[r]? = some o

/-- The object is of the given kind. -/
def IsTag (s : Store) (r : Ref) (t : Tag) : Prop := ∃ o, s.objects[r]? = some o ∧ o.tag = t

/-- An array, a frame or an environment with `n` items. -/
def Sized (s : Store) (r : Ref) (t : Tag) (n : Nat) : Prop :=
  ∃ xs, s.objects[r]? = some (.sequence t xs) ∧ xs.length = n

/-- What a slice shows part of: an array with `n` items, or nothing. -/
def Behind (s : Store) (array : Ref) (n : Nat) : Prop := array = unassigned ∧ n = 0 ∨ s.Sized array .array n

/-- The request with the given content. -/
def IsRequest (s : Store) (q : Ref) (r : Request) : Prop := s.objects[q]? = some (.request r)

/-- The context with the given number. -/
def HasId (s : Store) (c : Ref) (n : Nat) : Prop := ∃ f : Fiber, s.objects[c]? = some (.context f) ∧ f.id = n

/-- Every object is still there and of the same kind. -/
def Grows (s s' : Store) : Prop :=
  ∀ (r : Ref) (o : Obj), s.objects[r]? = some o → ∃ o' : Obj, s'.objects[r]? = some o' ∧ o'.frozen = o.frozen

/-- The variables of the frame belong to the environment. -/
def Scopes (s : Store) (env frame : Ref) : Prop := ∃ xs, s.objects[env]? = some (.sequence .environment xs) ∧ frame ∈ xs

/-- An item of an array. -/
def Nests (s : Store) (x r : Ref) : Prop := ∃ xs, s.objects[r]? = some (.sequence .array xs) ∧ x ∈ xs

/-- Part of an array, at any depth. -/
def Within (s : Store) : Ref → Ref → Prop := Relation.ReflTransGen s.Nests

end Store

/-- The object refers to objects of the kinds that the machine expects. -/
def Obj.Good (s : Store) : Obj → Prop
  | .number t _ => t ∈ [Tag.int, .float, .bool, .callRef]
  | .sequence t xs => (t = .array ∨ t = .frame) ∧ (∀ x ∈ xs, s.Known x) ∨ t = .environment ∧ ∀ x ∈ xs, s.IsTag x .frame
  | .slice array first stop => first ≤ stop ∧ ∃ n, s.Behind array n ∧ stop ≤ n
  | .context f => s.IsTag f.environment .environment ∧ (∀ x ∈ f.operands, s.Known x) ∧ ∀ x ∈ f.returns, s.Known x
  | .channel d => (∀ x ∈ d.buffer, s.Known x) ∧ ∀ q ∈ d.waiters, s.IsTag q .channelRequest
  | .request r => s.IsTag r.context .context ∧ (r.channel = FiberMachine.unassigned ∨ s.IsTag r.channel .channel) ∧ s.Known r.value ∧
      (r.frame = FiberMachine.unassigned ∨ s.Sized r.frame .frame 1 ∧ s.Scopes r.environment r.frame)
  | .func c => s.IsTag c.environment .environment
  | .method receiver name => s.Known receiver ∧ s.IsTag name .string
  | .waitGroup _ waiters => ∀ c ∈ waiters, s.IsTag c .context
  | .unassigned | .text _ => True

/-- A store that a program can bring about. -/
structure Store.Typed (s : Store) : Prop where
  nil : s.IsTag unassigned .unassigned
  good : ∀ (r : Ref) (o : Obj), s.objects[r]? = some o → o.Good s
  contexts : ∀ c ∈ s.contexts, s.IsTag c .context
  nested : ∀ r, Acc s.Nests r

/-! ### The communication state -/

/-- What an object has to do with waiting. -/
structure Wiring where
  /-- What a context waits for. -/
  waits : List Ref
  /-- The program counter of a context that is blocked. -/
  blockedAt : Option Nat
  /-- The requests that wait on a channel. -/
  waiters : List Ref
  /-- The buffer of a channel. -/
  buffer : List Ref
  /-- The contexts that a wait group is to release. -/
  queue : List Ref

/-- That of an object that has nothing to do with it. -/
def Wiring.none : Wiring := ⟨[], .none, [], [], []⟩

def Obj.wiring : Obj → Wiring
  | .context f => ⟨f.waits, if f.blocked then some f.pc else .none, [], [], []⟩
  | .channel d => ⟨[], .none, d.waiters, d.buffer, []⟩
  | .waitGroup _ waiters => ⟨[], .none, [], [], waiters⟩
  | _ => .none

def Store.wiring (s : Store) (r : Ref) : Wiring := (s.objects[r]?.map Obj.wiring).getD .none

/-- Nothing has happened between the contexts, and the store is still typed. -/
structure Calm (s s' : Store) : Prop where
  typed : s'.Typed
  grows : s.Grows s'
  wiring : ∀ r, s'.wiring r = s.wiring r
  contexts : s'.contexts = s.contexts

variable {s s' s'' : Store} {r x c q : Ref} {t : Tag} {n : Nat} {o old : Obj} {xs : List Ref}

/-! ### What stays known -/

namespace Store

theorem known_iff : s.Known r ↔ r < s.objects.length := by
  simp only [Known, List.getElem?_eq_some_iff]
  exact ⟨fun ⟨_, lt, _⟩ => lt, fun lt => ⟨_, lt, rfl⟩⟩

theorem IsTag.known (k : s.IsTag r t) : s.Known r := ⟨k.choose, k.choose_spec.1⟩

theorem IsTag.unique {t' : Tag} (k : s.IsTag r t) (l : s.IsTag r t') : t = t' := by
  obtain ⟨o, ho, rfl⟩ := k
  obtain ⟨o', ho', rfl⟩ := l
  rw [ho] at ho'
  cases ho'
  rfl

theorem IsRequest.unique {r r' : Request} (k : s.IsRequest q r) (l : s.IsRequest q r') : r = r' := by
  unfold IsRequest at k l
  rw [k] at l
  cases l
  rfl

theorem IsRequest.isTag {r : Request} (k : s.IsRequest q r) : s.IsTag q .channelRequest := ⟨_, k, rfl⟩

theorem Grows.refl : s.Grows s := fun _ o ho => ⟨o, ho, rfl⟩

theorem Grows.trans (g : s.Grows s') (g' : s'.Grows s'') : s.Grows s'' := by
  intro r o ho
  obtain ⟨o', ho', same⟩ := g r o ho
  obtain ⟨o'', ho'', same'⟩ := g' r o' ho'
  exact ⟨o'', ho'', same'.trans same⟩

theorem Known.grow (k : s.Known r) (g : s.Grows s') : s'.Known r := by
  obtain ⟨o, ho⟩ := k
  obtain ⟨o', ho', _⟩ := g r o ho
  exact ⟨o', ho'⟩

theorem IsTag.grow (k : s.IsTag r t) (g : s.Grows s') : s'.IsTag r t := by
  obtain ⟨o, ho, rfl⟩ := k
  obtain ⟨o', ho', same⟩ := g r o ho
  exact ⟨o', ho', by rw [← o'.frozen_tag, same, o.frozen_tag]⟩

theorem IsRequest.grow {r : Request} (k : s.IsRequest q r) (g : s.Grows s') : s'.IsRequest q r := by
  obtain ⟨o', ho', same⟩ := g q _ k
  cases o' <;> cases same
  exact ho'

theorem HasId.grow (k : s.HasId r n) (g : s.Grows s') : s'.HasId r n := by
  obtain ⟨f, ho, rfl⟩ := k
  obtain ⟨o', ho', same⟩ := g r _ ho
  cases o' with
  | context f' =>
    simp only [Obj.frozen, Obj.context.injEq, Fiber.mk.injEq] at same
    exact ⟨f', ho', same.2.2.2.2.2.2⟩
  | _ => cases same

theorem HasId.isTag (k : s.HasId r n) : s.IsTag r .context := by
  obtain ⟨f, ho, _⟩ := k
  exact ⟨_, ho, rfl⟩

theorem Sized.grow (k : s.Sized r t n) (g : s.Grows s') : s'.Sized r t n := by
  obtain ⟨xs, ho, rfl⟩ := k
  obtain ⟨o', ho', same⟩ := g r _ ho
  cases o' with
  | sequence t' ys =>
    simp only [Obj.frozen, Obj.sequence.injEq] at same
    obtain ⟨rfl, same⟩ := same
    refine ⟨ys, ho', ?_⟩
    split at same
    · rw [same]
    · simpa using congrArg List.length same
  | _ => cases same

theorem Sized.isTag (k : s.Sized r t n) : s.IsTag r t := by
  obtain ⟨xs, ho, _⟩ := k
  exact ⟨_, ho, rfl⟩

theorem Scopes.isTag {env frame : Ref} (k : s.Scopes env frame) : s.IsTag env .environment := by
  obtain ⟨xs, ho, _⟩ := k
  exact ⟨_, ho, rfl⟩

theorem Scopes.grow {env frame : Ref} (k : s.Scopes env frame) (g : s.Grows s') : s'.Scopes env frame := by
  obtain ⟨xs, ho, inside⟩ := k
  obtain ⟨o', ho', same⟩ := g env _ ho
  cases o' with
  | sequence t ys =>
    simp only [Obj.frozen, if_true, Obj.sequence.injEq] at same
    obtain ⟨rfl, same⟩ := same
    exact ⟨ys, ho', by rwa [← (if_pos rfl).symm.trans same] at inside⟩
  | _ => cases same

theorem Behind.grow (k : s.Behind r n) (g : s.Grows s') : s'.Behind r n := k.imp id (·.grow g)

theorem Grows.push : s.Grows (s.push o) := by
  intro r o' ho
  refine ⟨o', ?_, rfl⟩
  exact (List.getElem?_append_left (List.getElem?_eq_some_iff.mp ho).1).trans ho

theorem Grows.set (ho : s.objects[r]? = some old) (same : o.frozen = old.frozen) : s.Grows (s.set r o) := by
  intro q o' ho'
  by_cases e : q = r
  · subst e
    rw [ho] at ho'
    cases ho'
    exact ⟨o, List.getElem?_set_self (List.getElem?_eq_some_iff.mp ho).1, same⟩
  · exact ⟨o', (List.getElem?_set_ne (Ne.symm e)).trans ho', rfl⟩

end Store

theorem Obj.Good.grow (good : o.Good s) (g : s.Grows s') : o.Good s' := by
  cases o with
  | number t w => exact good
  | unassigned => trivial
  | text bs => trivial
  | sequence t xs =>
    rcases good with ⟨kind, items⟩ | ⟨kind, items⟩
    · exact .inl ⟨kind, fun x hx => (items x hx).grow g⟩
    · exact .inr ⟨kind, fun x hx => (items x hx).grow g⟩
  | slice array first stop =>
    obtain ⟨le, n, behind, fits⟩ := good
    exact ⟨le, n, behind.grow g, fits⟩
  | context f =>
    obtain ⟨env, operands, returns⟩ := good
    exact ⟨env.grow g, fun x hx => (operands x hx).grow g, fun x hx => (returns x hx).grow g⟩
  | channel d =>
    obtain ⟨buffer, waiters⟩ := good
    exact ⟨fun x hx => (buffer x hx).grow g, fun q hq => (waiters q hq).grow g⟩
  | request r =>
    obtain ⟨context, channel, value, frame⟩ := good
    exact ⟨context.grow g, channel.imp id (·.grow g), value.grow g, frame.imp id fun k => ⟨k.1.grow g, k.2.grow g⟩⟩
  | func c => exact good.grow g
  | method receiver name => exact ⟨good.1.grow g, good.2.grow g⟩
  | waitGroup counter waiters => exact fun c hc => (good c hc).grow g

/-- What the objects of a kind are. -/
theorem Store.Typed.canonical (typed : s.Typed) (k : s.IsTag r t) :
    match t with
    | .int | .float | .bool | .callRef => ∃ w, s.objects[r]? = some (.number t w)
    | .string => ∃ bs, s.objects[r]? = some (.text bs)
    | .array | .frame | .environment => ∃ xs, s.objects[r]? = some (.sequence t xs)
    | .slice => ∃ array first stop, s.objects[r]? = some (.slice array first stop)
    | .context => ∃ f, s.objects[r]? = some (.context f)
    | .channel => ∃ d, s.objects[r]? = some (.channel d)
    | .channelRequest => ∃ q, s.objects[r]? = some (.request q)
    | .func => ∃ c, s.objects[r]? = some (.func c)
    | .method => ∃ receiver name, s.objects[r]? = some (.method receiver name)
    | .waitGroup => ∃ counter waiters, s.objects[r]? = some (.waitGroup counter waiters)
    | .unassigned => s.objects[r]? = some .unassigned
    | .bytes | .stack | .queue | .list | .listNode => False := by
  obtain ⟨o, ho, rfl⟩ := k
  have good := typed.good r o ho
  cases o with
  | number t w =>
    have kind : t ∈ [Tag.int, .float, .bool, .callRef] := good
    simp only [List.mem_cons, List.not_mem_nil, or_false] at kind
    rcases kind with rfl | rfl | rfl | rfl <;> exact ⟨w, ho⟩
  | sequence t xs =>
    rcases good with ⟨rfl | rfl, _⟩ | ⟨rfl, _⟩ <;> exact ⟨xs, ho⟩
  | unassigned => exact ho
  | text bs => exact ⟨bs, ho⟩
  | slice array first stop => exact ⟨array, first, stop, ho⟩
  | context f => exact ⟨f, ho⟩
  | channel d => exact ⟨d, ho⟩
  | request q => exact ⟨q, ho⟩
  | func c => exact ⟨c, ho⟩
  | method receiver name => exact ⟨receiver, name, ho⟩
  | waitGroup counter waiters => exact ⟨counter, waiters, ho⟩

/-! ### Parts of arrays -/

namespace Store

theorem Typed.item_known (typed : s.Typed) (nests : s.Nests x r) : s.Known x := by
  obtain ⟨xs, ho, hx⟩ := nests
  rcases typed.good r _ ho with ⟨_, items⟩ | ⟨kind, _⟩
  · exact items x hx
  · cases kind

theorem Typed.within_known (typed : s.Typed) (within : s.Within x r) (hr : s.Known r) : s.Known x := by
  induction within using Relation.ReflTransGen.head_induction_on with
  | refl => exact hr
  | head nests _ _ => exact typed.item_known nests

/-- No array is part of one of its items. -/
theorem Typed.acyclic (typed : s.Typed) (nests : s.Nests x r) : ¬s.Within r x := by
  intro within
  have cycle : Relation.TransGen s.Nests r r := .tail' within nests
  have wf : WellFounded (Relation.TransGen s.Nests) := WellFounded.transGen ⟨typed.nested⟩
  exact wf.irrefl.irrefl r cycle

/-- Storing new items in an array, none of which it is a part of, makes no cycle. -/
theorem nested_of_store (nested : ∀ r, Acc s.Nests r)
    (step : ∀ x y, s'.Nests x y → s.Nests x y ∨ y = r ∧ ¬s.Within r x) (y : Ref) : Acc s'.Nests y := by
  have apart (y : Ref) (clear : ¬s.Within r y) : Acc s'.Nests y := by
    induction nested y with
    | intro y _ ih =>
      refine ⟨y, fun x hx => ?_⟩
      rcases step x y hx with old | ⟨rfl, _⟩
      · exact ih x old fun within => clear (within.tail old)
      · exact absurd .refl clear
  induction nested y with
  | intro y _ ih =>
    refine ⟨y, fun x hx => ?_⟩
    rcases step x y hx with old | ⟨_, clear⟩
    · exact ih x old
    · exact apart x clear

/-! ### Making and changing objects -/

theorem getElem?_push (s : Store) (o : Obj) (r : Ref) :
    (s.push o).objects[r]? = if r = s.objects.length then some o else s.objects[r]? := by
  change (s.objects ++ [o])[r]? = _
  split
  next e =>
    subst e
    simp
  next e =>
    by_cases lt : r < s.objects.length
    · exact List.getElem?_append_left lt
    · have lt' : s.objects.length < r := Nat.lt_of_le_of_ne (Nat.not_lt.mp lt) (Ne.symm e)
      rw [List.getElem?_eq_none (Nat.le_of_lt lt'), List.getElem?_eq_none]
      rw [List.length_append, List.length_singleton]
      exact lt'

theorem getElem?_set (hr : s.Known r) (o : Obj) (q : Ref) :
    (s.set r o).objects[q]? = if q = r then some o else s.objects[q]? := by
  split
  next e =>
    subst e
    exact List.getElem?_set_self (known_iff.mp hr)
  next e => exact List.getElem?_set_ne (Ne.symm e)

theorem wiring_set (hr : s.Known r) (o : Obj) (q : Ref) : (s.set r o).wiring q = if q = r then o.wiring else s.wiring q := by
  rw [wiring, getElem?_set hr]
  split
  · rfl
  · rfl

theorem wiring_push (plain : o.wiring = .none) (q : Ref) : (s.push o).wiring q = s.wiring q := by
  rw [wiring, getElem?_push]
  split
  next e =>
    subst e
    rw [wiring, List.getElem?_eq_none (Nat.le_refl _)]
    exact plain
  next => rfl

theorem wiring_of (ho : s.objects[r]? = some o) : s.wiring r = o.wiring := by rw [wiring, ho]; rfl

theorem Typed.push (typed : s.Typed) (good : o.Good s) : (s.push o).Typed where
  nil := typed.nil.grow .push
  good := by
    intro r o' ho'
    rw [getElem?_push] at ho'
    split at ho'
    · cases ho'
      exact good.grow .push
    · exact (typed.good r o' ho').grow .push
  contexts := fun c hc => (typed.contexts c hc).grow .push
  nested := by
    have step (x y : Ref) (nests : (s.push o).Nests x y) : s.Nests x y ∨ y = s.objects.length ∧ ¬s.Within s.objects.length x := by
      obtain ⟨xs, ho, hx⟩ := nests
      rw [getElem?_push] at ho
      split at ho
      next e =>
        cases ho
        refine .inr ⟨e, fun within => ?_⟩
        have known : s.Known x := by
          rcases good with ⟨_, items⟩ | ⟨kind, _⟩
          · exact items x hx
          · cases kind
        exact absurd (known_iff.mp (typed.within_known within known)) (Nat.lt_irrefl _)
      next => exact .inl ⟨xs, ho, hx⟩
    exact nested_of_store typed.nested step

theorem Typed.set (typed : s.Typed) (ho : s.objects[r]? = some old) (same : o.frozen = old.frozen) (good : o.Good s)
    (clear : ∀ xs, o = .sequence .array xs → ∀ x ∈ xs, s.Nests x r ∨ ¬s.Within r x) : (s.set r o).Typed where
  nil := typed.nil.grow (.set ho same)
  good := by
    intro q o' ho'
    rw [getElem?_set ⟨old, ho⟩] at ho'
    split at ho'
    · cases ho'
      exact good.grow (.set ho same)
    · exact (typed.good q o' ho').grow (.set ho same)
  contexts := fun c hc => (typed.contexts c hc).grow (.set ho same)
  nested := by
    have step (x y : Ref) (nests : (s.set r o).Nests x y) : s.Nests x y ∨ y = r ∧ ¬s.Within r x := by
      obtain ⟨xs, ho', hx⟩ := nests
      rw [getElem?_set ⟨old, ho⟩] at ho'
      split at ho'
      next e =>
        cases ho'
        subst e
        exact (clear xs rfl x hx).imp id fun apart => ⟨rfl, apart⟩
      next => exact .inl ⟨xs, ho', hx⟩
    exact nested_of_store typed.nested step

/-- Other roots on the same objects. -/
theorem Typed.reroot (typed : s.Typed) (objects : s'.objects = s.objects) (contexts : ∀ c ∈ s'.contexts, s.IsTag c .context) :
    s'.Typed where
  nil := by
    obtain ⟨o, ho, ht⟩ := typed.nil
    exact ⟨o, objects ▸ ho, ht⟩
  good := fun r o ho => (typed.good r o (objects ▸ ho)).grow fun r o ho => ⟨o, objects ▸ ho, rfl⟩
  contexts := fun c hc => (contexts c hc).grow fun r o ho => ⟨o, objects ▸ ho, rfl⟩
  nested := by
    have same : s'.Nests = s.Nests := by
      funext x r
      rw [Nests, Nests, objects]
    exact same ▸ typed.nested

end Store

namespace Calm

theorem refl (typed : s.Typed) : Calm s s := ⟨typed, .refl, fun _ => rfl, rfl⟩

theorem trans (c : Calm s s') (d : Calm s' s'') : Calm s s'' :=
  ⟨d.typed, c.grows.trans d.grows, fun r => (d.wiring r).trans (c.wiring r), d.contexts.trans c.contexts⟩

theorem push (typed : s.Typed) (good : o.Good s) (plain : o.wiring = .none) : Calm s (s.push o) :=
  ⟨typed.push good, .push, Store.wiring_push plain, rfl⟩

theorem set (typed : s.Typed) (ho : s.objects[r]? = some old) (same : o.frozen = old.frozen) (good : o.Good s)
    (clear : ∀ xs, o = .sequence .array xs → ∀ x ∈ xs, s.Nests x r ∨ ¬s.Within r x) (wiring : o.wiring = old.wiring) :
    Calm s (s.set r o) := by
  refine ⟨typed.set ho same good clear, .set ho same, fun q => ?_, rfl⟩
  rw [Store.wiring_set ⟨old, ho⟩]
  split
  next e => rw [e, Store.wiring_of ho, wiring]
  next => rfl

end Calm

end FiberMachine.Ideal
