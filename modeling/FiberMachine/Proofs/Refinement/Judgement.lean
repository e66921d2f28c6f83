import FiberMachine.Proofs.Refinement.World

/-!
# Following the ideal machine

An action follows an ideal action if it does to the heap what the ideal one does to the store: it answers
the address of the object that the other answers, or fails in the same way. Only the memory may be used up at
any time, and what happens when the ideal action goes wild is not described. The judgement is made for
heaps, machines and executions alike; a level says how a state is related to an ideal one.
-/

/-! ## Changes to the store and the heap

When the heap evolves, an object stays in it if its main block survives. One object at a time changes or
is new: the other objects are where and what they were, and of the changed one it has to be shown what
it has become.
-/

namespace FiberMachine

open Ideal

/-- The survivors of a world, and new blocks of the object `r₀` with their roles. -/
def World.evolve (w : World) (L : Nat → Prop) (r₀ : Ref) (M : List (Nat × Nat)) (p : Nat → Nat) : World where
  owns r k b := (w.owns r k b ∧ L b ∧ ∃ a, w.home r a ∧ L a) ∨ (r = r₀ ∧ (k, b) ∈ M)
  part r := if r = r₀ then p else w.part r
  capacity := w.capacity
  size := max w.size (r₀ + 1)
  origin := w.origin

variable {w w' : World} {s s' : Store} {h h' : Heap} {L P : Nat → Prop} {N : List Nat} {M : List (Nat × Nat)}
  {r r₀ : Ref} {a a₀ b k k₀ : Nat} {o : Obj} {p : Nat → Nat}

namespace World

theorem home_evolve (ha : w.home r a) (la : L a) : (w.evolve L r₀ M p).home r a := .inl ⟨ha, la, a, ha, la⟩

theorem owns_evolve (hb : w.owns r k b) (lb : L b) (ha : w.home r a) (la : L a) : (w.evolve L r₀ M p).owns r k b :=
  .inl ⟨hb, lb, a, ha, la⟩

theorem owns_evolve_new (hb : (k, b) ∈ M) : (w.evolve L r₀ M p).owns r₀ k b := .inr ⟨rfl, hb⟩

theorem part_evolve : (w.evolve L r₀ M p).part r₀ = p := if_pos rfl

theorem Carries.evolve (tidy : h.Tidy) (sv : h.Survives L) (old : ∀ a, w.home r₀ a → p = w.part r₀) :
    Carries w h L (w.evolve L r₀ M p) := by
  refine ⟨tidy, sv, fun _ _ ha la => home_evolve ha la, fun r a ha => ?_, fun _ _ _ _ hb lb ha la => owns_evolve hb lb ha la⟩
  by_cases e : r = r₀
  · subst e
    exact part_evolve.trans (old a ha)
  · exact if_neg e

end World

namespace Rep

theorem lt_length (rep : Rep w s h) (ha : w.home r a) : r < s.objects.length := by
  obtain ⟨o, ho, _⟩ := rep.object r a ha
  exact (List.getElem?_eq_some_iff.mp ho).1

theorem unique (rep : Rep w s h) {r' : Ref} (ha : w.home r a) (ha' : w.home r' a) : r = r' :=
  (rep.owner r 0 r' 0 a ha ha').1

/-- Identity of objects is identity of addresses. -/
theorem eq_iff (rep : Rep w s h) {r' : Ref} {a' : Nat} (ha : w.home r a) (ha' : w.home r' a') : a = a' ↔ r = r' := by
  constructor
  · rintro rfl
    exact rep.unique ha ha'
  · rintro rfl
    exact rep.single r a a' ha ha'

theorem eq_unassigned (rep : Rep w s h) (ha : w.home r a) : a = unassigned ↔ r = unassigned := rep.eq_iff ha rep.nil

theorem has (rep : Rep w s h) (ha : w.home r a) (ho : s.objects[r]? = some o) : w.Has h r a o := by
  obtain ⟨o', ho', has⟩ := rep.object r a ha
  rw [ho] at ho'
  cases ho'
  exact has

theorem root (rep : Rep w s h) (ha : w.home r a) (hr : r ∈ s.roots) : a ∈ h.roots := by
  have pick {xs : List Ref} {as : List Nat} (homes : List.Forall₂ w.home xs as) (hx : r ∈ xs) : a ∈ as := by
    obtain ⟨i, hi, rfl⟩ := List.mem_iff_getElem.mp hx
    have hi' : i < as.length := homes.length_eq ▸ hi
    have here := List.forall₂_iff_get.mp homes |>.2 i hi hi'
    exact (rep.single _ _ _ here ha) ▸ List.getElem_mem hi'
  unfold Heap.roots
  rcases List.mem_append.mp hr with hr | hr
  · exact List.mem_append_left _ (List.mem_cons_of_mem _ (pick rep.contexts hr))
  · exact List.mem_append_right _ (pick rep.temporaries hr)

/-- One object changes or is new, and the others stay. -/
theorem evolve (rep : Rep w s h) (sv : h.Survives L) (e : Heap.Evolves h L h' P N)
    (new : ∀ k b, (k, b) ∈ M → b ∈ N) (roles : ∀ k k' b, (k, b) ∈ M → (k', b) ∈ M → k = k')
    (main : ∀ a, (w.evolve L r₀ M p).home r₀ a ↔ a = a₀) (start : p 0 = a₀) (size : s'.objects.length = max s.objects.length (r₀ + 1))
    (old : ∀ a, w.home r₀ a → p = w.part r₀)
    (part : ∀ r k b, r ≠ r₀ → w.owns r k b → L b → ¬P b)
    (others : ∀ r, r ≠ r₀ → r < s.objects.length → s'.objects[r]? = s.objects[r]?)
    (object : s'.objects[r₀]? = some o) (has : (w.evolve L r₀ M p).Has h' r₀ a₀ o)
    (contexts : s'.contexts = s.contexts) (temporaries : s'.temporaries = s.temporaries) :
    Rep (w.evolve L r₀ M p) s' h' := by
  have c : World.Carries w h L (w.evolve L r₀ M p) := .evolve rep.tidy sv old
  have roots (as : List Nat) (part : ∀ a ∈ as, a ∈ h.roots) : ∀ a ∈ as, L a := fun a ha => sv.root a (part a ha)
  refine {
    tidy := e.tidy
    capacity := e.capacity.trans rep.capacity
    owner := ?_
    allocated := ?_
    main := ?_
    single := ?_
    start := ?_
    size := ?_
    object := ?_
    nil := World.home_evolve rep.nil (sv.root _ (by simp [Heap.roots]))
    contexts := ?_
    temporaries := ?_
    lasts := rep.lasts.trans e.lasts fun _ _ hb => hb }
  · rintro r k r' k' b (⟨hb, lb, _⟩ | ⟨rfl, hb⟩) (⟨hb', lb', _⟩ | ⟨rfl, hb'⟩)
    · exact rep.owner r k r' k' b hb hb'
    · exact absurd lb (e.new b (new _ _ hb')).2
    · exact absurd lb' (e.new b (new _ _ hb)).2
    · exact ⟨rfl, roles k k' b hb hb'⟩
  · rintro r k b (⟨hb, lb, _⟩ | ⟨rfl, hb⟩)
    · exact (e.stays b lb).1
    · exact (e.new b (new _ _ hb)).1
  · rintro r k b (⟨hb, lb, a, ha, la⟩ | ⟨rfl, hb⟩)
    · exact ⟨a, World.home_evolve ha la⟩
    · exact ⟨a₀, (main a₀).mpr rfl⟩
  · intro r a a' ha ha'
    by_cases eq : r = r₀
    · subst eq
      rw [(main a).mp ha, (main a').mp ha']
    · rcases ha with ⟨ha, _⟩ | ⟨rfl, _⟩
      · rcases ha' with ⟨ha', _⟩ | ⟨rfl, _⟩
        · exact rep.single r a a' ha ha'
        · exact absurd rfl eq
      · exact absurd rfl eq
  · intro r a ha
    by_cases eq : r = r₀
    · subst eq
      rw [World.part_evolve, start, (main a).mp ha]
    · rcases ha with ⟨ha, _⟩ | ⟨rfl, _⟩
      · exact (congrFun (if_neg eq) 0).trans (rep.start r a ha)
      · exact absurd rfl eq
  · rw [size, ← rep.size]
    rfl
  · intro r a ha
    by_cases eq : r = r₀
    · subst eq
      cases (main a).mp ha
      exact ⟨o, object, has⟩
    · rcases ha with ⟨ha, la, _⟩ | ⟨rfl, _⟩
      · obtain ⟨o', ho', has'⟩ := rep.object r a ha
        refine ⟨o', (others r eq (rep.lt_length ha)).trans ho', c.has has' ha la fun k b hb lb => ?_⟩
        exact e.kept b lb (part r k b eq hb lb)
      · exact absurd rfl eq
  · rw [contexts, e.contexts]
    exact c.homes rep.contexts (roots _ fun a ha => by simp [Heap.roots, ha])
  · rw [temporaries, e.temporaries]
    exact c.homes rep.temporaries (roots _ fun a ha => by simp [Heap.roots, ha])

/-- A part of an object changes, and its role has new blocks. -/
theorem change (rep : Rep w s h) (sv : h.Survives L) (e : Heap.Evolves h L h' P N) (ha : w.home r a) (la : L a)
    (part : ∀ b, L b → P b → w.owns r k b) (sub : k ≠ 0 ∨ N = [])
    (has : (w.evolve L r (N.map (Prod.mk k)) (w.part r)).Has h' r a o) :
    Rep (w.evolve L r (N.map (Prod.mk k)) (w.part r)) (s.set r o) h' := by
  have mem (j b : Nat) (hb : (j, b) ∈ N.map (Prod.mk k)) : j = k ∧ b ∈ N := by
    obtain ⟨c, hc, eq⟩ := List.mem_map.mp hb
    cases eq
    exact ⟨rfl, hc⟩
  refine rep.evolve sv e (fun j b hb => (mem j b hb).2) (fun j j' b hb hb' => (mem j b hb).1.trans (mem j' b hb').1.symm)
    (fun a' => ⟨?_, ?_⟩) (rep.start r a ha) ?_ (fun _ _ => rfl) (fun r' j b ne hb lb hp => ne (rep.owner r' j r k b hb (part b lb hp)).1)
    (fun r' ne _ => List.getElem?_set_ne ne.symm) ?_ has rfl rfl
  · rintro (⟨ha', _⟩ | ⟨_, hb⟩)
    · exact rep.single r a' a ha' ha
    · obtain ⟨rfl, hb⟩ := mem 0 a' hb
      rcases sub with no | rfl
      · exact absurd rfl no
      · cases hb
  · rintro rfl
    exact World.home_evolve ha la
  · exact List.length_set.trans (Nat.max_eq_left (Nat.succ_le_of_lt (rep.lt_length ha))).symm
  · exact List.getElem?_set_self (rep.lt_length ha)

/-- The other objects when an object is made. -/
theorem carries (rep : Rep w s h) (sv : h.Survives L) : World.Carries w h L (w.evolve L s.objects.length M p) :=
  .evolve rep.tidy sv fun _ ha => absurd (rep.lt_length ha) (Nat.lt_irrefl _)

/-- An object is made. -/
theorem add (rep : Rep w s h) (sv : h.Survives L) (e : Heap.Evolves h L h' (fun _ => False) N)
    (new : ∀ k b, (k, b) ∈ M → b ∈ N) (roles : ∀ k k' b, (k, b) ∈ M → (k', b) ∈ M → k = k')
    (main : ∀ b, (0, b) ∈ M ↔ b = a) (start : p 0 = a) (has : (w.evolve L s.objects.length M p).Has h' s.objects.length a o) :
    Rep (w.evolve L s.objects.length M p) (s.push o) h' := by
  refine rep.evolve sv e new roles (fun a' => ⟨?_, ?_⟩) start (by simp [Store.push])
    (fun a ha => absurd (rep.lt_length ha) (Nat.lt_irrefl _)) (fun _ _ _ _ _ _ no => no) (fun r' _ lt => ?_) ?_ has rfl rfl
  · rintro (⟨ha', _⟩ | ⟨_, hb⟩)
    · exact absurd (rep.lt_length ha') (Nat.lt_irrefl _)
    · exact (main a').mp hb
  · rintro rfl
    exact .inr ⟨rfl, (main a').mpr rfl⟩
  · exact List.getElem?_append_left lt
  · simp [Store.push]

/-- A part of an object changes without an allocation, so every object stays. -/
theorem mutate (rep : Rep w s h) (e : Heap.Evolves h h.Allocated h' P []) (ha : w.home r a)
    (part : ∀ b, P b → w.owns r k b) (has : w.Has h' r a o) : Rep w (s.set r o) h' := by
  have c : World.Carries w h h.Allocated w := ⟨rep.tidy, .all rep.tidy, fun _ _ ha _ => ha, fun _ _ _ => rfl, fun _ _ _ _ hb _ _ _ => hb⟩
  refine {
    tidy := e.tidy
    capacity := e.capacity.trans rep.capacity
    owner := rep.owner
    allocated := fun r k b hb => (e.stays b (rep.allocated r k b hb)).1
    main := rep.main
    single := rep.single
    start := rep.start
    size := rep.size.trans List.length_set.symm
    object := ?_
    nil := rep.nil
    contexts := ?_
    temporaries := ?_
    lasts := rep.lasts.trans e.lasts fun _ _ hb => hb }
  · intro r' a' ha'
    by_cases eq : r' = r
    · subst eq
      cases rep.single r' a a' ha ha'
      exact ⟨o, List.getElem?_set_self (rep.lt_length ha), has⟩
    · obtain ⟨o', ho', has'⟩ := rep.object r' a' ha'
      refine ⟨o', (List.getElem?_set_ne (Ne.symm eq)).trans ho', c.has has' ha' (rep.allocated r' 0 a' ha') fun j b hb lb => ?_⟩
      exact e.kept b lb fun hp => eq (rep.owner r' j r k b hb (part b hp)).1
  · rw [e.contexts]
    exact rep.contexts
  · rw [e.temporaries]
    exact rep.temporaries

end Rep

end FiberMachine

/-! ## Following the ideal machine -/

namespace FiberMachine

open Ideal

/-- How states of one kind are related to ideal states. -/
structure Level (τ σ ε : Type) where
  rel : World → τ → σ → Prop
  store : τ → Store
  cause : ε → MachineError
  /-- What is known after a failure. -/
  failed : τ → σ → Prop

/-- What a sequence of actions leaves of a world: protected objects stay, and no object moves. -/
structure Keeps (w : World) (s : Store) (w' : World) (s' : Store) : Prop where
  capacity : w'.capacity = w.capacity
  origin : w'.origin = w.origin
  length : s.objects.length ≤ s'.objects.length
  old : ∀ r a, w'.home r a → r < s.objects.length → w.home r a
  spot : ∀ r < s.objects.length, w'.part r 0 = w.part r 0
  contexts : s.contexts <+: s'.contexts
  temporaries : s.temporaries <+: s'.temporaries
  placed : ∀ r ∈ s.roots, ∀ a, w.home r a → w'.home r a

/-- The failure says that the memory is used up. -/
def Exhausted (cause : MachineError) : Prop := ∃ size, cause = .heap (.outOfMemory size)

section

variable {τ σ ε α β : Type}

/-- How the result of an action compares with that of the ideal one, begun in the world `w` with the
store `s`. -/
inductive Matches (lv : Level τ σ ε) (w : World) (s : Store) (Q : World → β → α → Prop) :
    EStateM.Result (Failure ε) σ α → EStateM.Result Lapse τ β → Prop where
  | full {k c r} (full : Exhausted (lv.cause k)) : Matches lv w s Q (.error (.error k) c) r
  | ok {a c b t} (w' : World) (rel : lv.rel w' t c) (keeps : Keeps w s w' (lv.store t)) (q : Q w' b a) :
      Matches lv w s Q (.ok a c) (.ok b t)
  | error {k c cause t} (same : (lv.cause k).erase = cause) (failed : lv.failed t c) :
      Matches lv w s Q (.error (.error k) c) (.error (.error cause) t)
  | fault {f c t} : Matches lv w s Q (.error (.fault f) c) (.error .fault t)
  | wild {r t} : Matches lv w s Q r (.error .wild t)

/-- The action `m` follows the ideal action `n`. -/
def Follows (lv : Level τ σ ε) (w : World) (t : τ) (c : σ) (m : EStateM (Failure ε) σ α) (n : EStateM Lapse τ β)
    (Q : World → β → α → Prop) : Prop :=
  Matches lv w (lv.store t) Q (m c) (n t)

/-- How the result of an observation compares with that of the ideal one. -/
inductive Sees (s : Store) (Q : β → α → Prop) : Except HeapFailure α → EStateM.Result Lapse Store β → Prop where
  | ok {a b} (q : Q b a) : Sees s Q (.ok a) (.ok b s)
  | error {k cause t} (same : (MachineError.heap k).erase = cause) :
      Sees s Q (.error (.error k)) (.error (.error cause) t)
  | fault {f t} : Sees s Q (.error (.fault f)) (.error .fault t)
  | wild {r t} : Sees s Q r (.error .wild t)

/-- The observation `look` follows the ideal action `n`, which changes nothing. -/
def Reads (s : Store) (h : Heap) (look : HeapReader α) (n : StoreM β) (Q : β → α → Prop) : Prop :=
  Sees s Q (look h) (n s)

end

/-- Heaps and stores. -/
def heapLevel : Level Store Heap HeapError where
  rel := Rep
  store := id
  cause := .heap
  failed _ _ := True

/-- The action on the heap follows the action on the store. -/
abbrev Tracks {α β : Type} := @Follows Store Heap HeapError α β heapLevel

namespace Keeps

variable {w w' w'' : World} {s s' s'' : Store}

theorem refl : Keeps w s w s :=
  ⟨rfl, rfl, le_rfl, fun _ _ ha _ => ha, fun _ _ => rfl, List.prefix_rfl, List.prefix_rfl, fun _ _ _ ha => ha⟩

theorem roots (k : Keeps w s w' s') {r : Ref} (hr : r ∈ s.roots) : r ∈ s'.roots := by
  rcases List.mem_append.mp hr with hr | hr
  · exact List.mem_append_left _ (k.contexts.subset hr)
  · exact List.mem_append_right _ (k.temporaries.subset hr)

theorem trans (k : Keeps w s w' s') (l : Keeps w' s' w'' s'') : Keeps w s w'' s'' where
  capacity := l.capacity.trans k.capacity
  origin := l.origin.trans k.origin
  length := k.length.trans l.length
  old := fun r a ha hr => k.old r a (l.old r a ha (Nat.lt_of_lt_of_le hr k.length)) hr
  spot := fun r hr => (l.spot r (Nat.lt_of_lt_of_le hr k.length)).trans (k.spot r hr)
  contexts := k.contexts.trans l.contexts
  temporaries := k.temporaries.trans l.temporaries
  placed := fun r hr a ha => l.placed r (k.roots hr) a (k.placed r hr a ha)

theorem mutate (contexts : s'.contexts = s.contexts) (temporaries : s'.temporaries = s.temporaries)
    (length : s'.objects.length = s.objects.length) : Keeps w s w s' :=
  ⟨rfl, rfl, Nat.le_of_eq length.symm, fun _ _ ha _ => ha, fun _ _ => rfl, contexts ▸ List.prefix_rfl, temporaries ▸ List.prefix_rfl,
    fun _ _ _ ha => ha⟩

end Keeps

/-- No object moves from one world to the other. -/
structure Abides (w : World) (s : Store) (w' : World) (s' : Store) : Prop where
  capacity : w'.capacity = w.capacity
  origin : w'.origin = w.origin
  length : s.objects.length ≤ s'.objects.length
  old : ∀ r a, w'.home r a → r < s.objects.length → w.home r a
  spot : ∀ r < s.objects.length, w'.part r 0 = w.part r 0

section

variable {w w' w'' : World} {s s' s'' : Store}

theorem Keeps.abides (k : Keeps w s w' s') : Abides w s w' s' := ⟨k.capacity, k.origin, k.length, k.old, k.spot⟩

theorem Abides.refl : Abides w s w s := Keeps.refl.abides

theorem Abides.trans (k : Abides w s w' s') (l : Abides w' s' w'' s'') : Abides w s w'' s'' :=
  ⟨l.capacity.trans k.capacity, l.origin.trans k.origin, k.length.trans l.length,
    fun r a ha hr => k.old r a (l.old r a ha (Nat.lt_of_lt_of_le hr k.length)) hr,
    fun r hr => (l.spot r (Nat.lt_of_lt_of_le hr k.length)).trans (k.spot r hr)⟩

end

/-- A protected object and its address. -/
structure Held (w : World) (s : Store) (r : Ref) (a : Nat) : Prop where
  home : w.home r a
  root : r ∈ s.roots

theorem Held.keep {w w' : World} {s s' : Store} {r : Ref} {a : Nat} (held : Held w s r a) (k : Keeps w s w' s') :
    Held w' s' r a :=
  ⟨k.placed r held.root a held.home, k.roots held.root⟩

namespace Follows

variable {τ σ ε α β γ δ : Type} {lv : Level τ σ ε} {w : World} {t : τ} {c : σ} {m : EStateM (Failure ε) σ α}
  {n : EStateM Lapse τ β} {Q : World → β → α → Prop}

theorem pure {a : α} {b : β} (rel : lv.rel w t c) (q : Q w b a) : Follows lv w t c (pure a) (pure b) Q :=
  .ok w rel .refl q

theorem weaken {Q' : World → β → α → Prop} (f : Follows lv w t c m n Q) (more : ∀ w' b a, Q w' b a → Q' w' b a) :
    Follows lv w t c m n Q' := by
  unfold Follows at f ⊢
  generalize m c = x, n t = y at f ⊢
  cases f with
  | full full => exact .full full
  | ok w' rel keeps q => exact .ok w' rel keeps (more w' _ _ q)
  | error same failed => exact .error same failed
  | fault => exact .fault
  | wild => exact .wild

/-- One action after another. -/
theorem bind {k : α → EStateM (Failure ε) σ γ} {l : β → EStateM Lapse τ δ} {R : World → δ → γ → Prop}
    (f : Follows lv w t c m n Q)
    (next : ∀ b t' a c' w', lv.rel w' t' c' → Keeps w (lv.store t) w' (lv.store t') → Q w' b a →
      Follows lv w' t' c' (k a) (l b) R) :
    Follows lv w t c (m >>= k) (n >>= l) R := by
  unfold Follows at f ⊢
  rw [run_bind, run_bind]
  generalize m c = x, n t = y at f ⊢
  cases f with
  | full full => exact .full full
  | ok w' rel keeps q =>
    have g := next _ _ _ _ w' rel keeps q
    unfold Follows at g
    simp only
    generalize k _ _ = x, l _ _ = y at g ⊢
    cases g with
    | full full => exact .full full
    | ok w'' rel' keeps' q' => exact .ok w'' rel' (keeps.trans keeps') q'
    | error same failed => exact .error same failed
    | fault => exact .fault
    | wild => exact .wild
  | error same failed => exact .error same failed
  | fault => exact .fault
  | wild => exact .wild

/-- The ideal action goes wild. -/
theorem wild {u : τ} (run : n t = .error .wild u) : Follows lv w t c m n Q := by
  unfold Follows
  rw [run]
  exact .wild

/-- Both actions may be replaced by others that do the same here. -/
theorem congr {k : EStateM (Failure ε) σ α} {l : EStateM Lapse τ β} (f : Follows lv w t c k l Q)
    (hm : m c = k c) (hn : n t = l t) : Follows lv w t c m n Q := by
  unfold Follows at f ⊢
  rwa [hm, hn]

/-- Both actions do the same first step, which leaves the states as they are. -/
theorem skip {m : EStateM (Failure ε) σ γ} {n : EStateM Lapse τ δ} {x : γ} {y : δ} {k : γ → EStateM (Failure ε) σ α}
    {l : δ → EStateM Lapse τ β} (hm : m c = .ok x c) (hn : n t = .ok y t) (f : Follows lv w t c (k x) (l y) Q) :
    Follows lv w t c (m >>= k) (n >>= l) Q :=
  f.congr (by rw [run_bind, hm]) (by rw [run_bind, hn])

/-- An ideal observation comes first. -/
theorem ideal {n : EStateM Lapse τ δ} {l : δ → EStateM Lapse τ β} {d : δ} (run : n t = .ok d t)
    (next : Follows lv w t c m (l d) Q) : Follows lv w t c m (n >>= l) Q :=
  next.congr rfl (by rw [run_bind, run])

end Follows

end FiberMachine
