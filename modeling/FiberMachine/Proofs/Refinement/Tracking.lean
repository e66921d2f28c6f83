import FiberMachine.Proofs.Refinement.Judgement

/-!
# Rules for actions on the heap

An action on the heap reads objects, makes an object, changes one in place, or runs with more addresses
protected. There is one rule for each of these.
-/

namespace FiberMachine

open Ideal

/-- The store with more objects protected. -/
def Ideal.Store.rooting (s : Store) (ρ : List Ref) : Store := { s with temporaries := s.temporaries ++ ρ }

variable {α β γ δ : Type} {w w' : World} {s s' : Store} {h h' k : Heap} {r : Ref} {a : Nat} {o : Obj}

/-! ### Roots -/

namespace World

theorem Has.sameArena (same : h.SameArena k) (tidy : h.Tidy)
    (allocated : ∀ r k b, w.owns r k b → h.Allocated b) (has : w.Has h r a o) (ha : w.home r a) : w.Has k r a o := by
  have c : Carries w h h.Allocated w := ⟨tidy, .all tidy, fun _ _ ha _ => ha, fun _ _ _ => rfl, fun _ _ _ _ hb _ _ _ => hb⟩
  exact c.has has ha (allocated _ _ _ ha) fun _ _ _ hb => same.kept hb

end World

namespace Rep

theorem home_allocated (rep : Rep w s h) (ha : w.home r a) : h.Allocated a := rep.allocated r 0 a ha

theorem homes_allocated (rep : Rep w s h) {xs : List Ref} {as : List Nat} (homes : List.Forall₂ w.home xs as) :
    ∀ a ∈ as, h.Allocated a := by
  induction homes with
  | nil => exact fun a ha => absurd ha List.not_mem_nil
  | cons hx _ ih =>
    intro a ha
    rcases List.mem_cons.mp ha with rfl | ha
    · exact rep.home_allocated hx
    · exact ih a ha

/-- Other roots on the same arena. -/
theorem reroot (rep : Rep w s h) (same : h.SameArena k) (objects : s'.objects = s.objects)
    (contexts : List.Forall₂ w.home s'.contexts k.contexts)
    (temporaries : List.Forall₂ w.home s'.temporaries k.temporaries.toList) (stats : k.stats = h.stats := by rfl) : Rep w s' k where
  tidy := by
    refine rep.tidy.sameArena same fun a ha => ?_
    unfold Heap.roots at ha
    rcases List.mem_append.mp ha with ha | ha
    · rcases List.mem_cons.mp ha with rfl | ha
      · exact rep.tidy.sound.sentinel
      · exact rep.homes_allocated contexts a ha
    · exact rep.homes_allocated temporaries a ha
  capacity := by
    rw [← rep.capacity, Heap.capacity, Heap.capacity, same.memory]
  owner := rep.owner
  allocated := fun r k b hb => same.allocated.mpr (rep.allocated r k b hb)
  main := rep.main
  single := rep.single
  start := rep.start
  size := rep.size.trans (congrArg List.length objects).symm
  object := by
    intro r a ha
    obtain ⟨o, ho, has⟩ := rep.object r a ha
    exact ⟨o, objects ▸ ho, has.sameArena same rep.tidy rep.allocated ha⟩
  nil := rep.nil
  contexts := contexts
  temporaries := temporaries
  lasts := rep.lasts.trans (.stays (fun _ hb => (same.kept hb).stable) stats) fun _ _ hb => hb

theorem rooting (rep : Rep w s h) {ρ : List Ref} {as : List Nat} (homes : List.Forall₂ w.home ρ as) :
    Rep w (s.rooting ρ) (h.rooting as) := by
  refine rep.reroot Heap.sameArena_rooting rfl rep.contexts ?_
  have : (h.rooting as).temporaries.toList = h.temporaries.toList ++ as := by simp [Heap.rooting]
  rw [this]
  exact List.rel_append rep.temporaries homes

end Rep

/-! ### Reading -/

namespace Reads

variable {reader : HeapReader α} {n : StoreM β} {Q : β → α → Prop}

theorem pure {a : α} {b : β} (q : Q b a) : Reads s h (pure a) (pure b) Q := .ok q

theorem weaken {Q' : β → α → Prop} (f : Reads s h reader n Q) (more : ∀ b a, Q b a → Q' b a) : Reads s h reader n Q' := by
  unfold Reads at f ⊢
  generalize reader h = x, n s = y at f ⊢
  cases f with
  | ok q => exact .ok (more _ _ q)
  | error same => exact .error same
  | fault => exact .fault
  | wild => exact .wild

theorem bind {k : α → HeapReader γ} {l : β → StoreM δ} {R : δ → γ → Prop} (f : Reads s h reader n Q)
    (next : ∀ b a, Q b a → Reads s h (k a) (l b) R) : Reads s h (reader >>= k) (n >>= l) R := by
  unfold Reads at f ⊢
  rw [HeapReader.run_bind, run_bind]
  generalize reader h = x, n s = y at f ⊢
  cases f with
  | ok q => exact next _ _ q
  | error same => exact .error same
  | fault => exact .fault
  | wild => exact .wild

/-- What is seen of an object decides how both go on. -/
theorem look {view : Obj → Option δ} {l : δ → StoreM β} (rep : Rep w s h) (ha : w.home r a)
    (next : ∀ o x, s.objects[r]? = some o → view o = some x → w.Has h r a o → Reads s h reader (l x) Q) :
    Reads s h reader (Ideal.look view r >>= l) Q := by
  obtain ⟨o, ho, has⟩ := rep.object r a ha
  unfold Reads
  rw [run_bind, Ideal.look, ho]
  cases hx : view o with
  | none =>
    simp only [Option.bind, hx]
    exact .wild
  | some x =>
    simp only [Option.bind, hx]
    exact next o x ho hx has

/-- The observation is evaluated. -/
theorem found {a : α} {b : β} (run : reader h = .ok a) (run' : n s = .ok b s) (q : Q b a) : Reads s h reader n Q := by
  unfold Reads
  rw [run, run']
  exact .ok q

theorem congr {k : HeapReader α} {l : StoreM β} (f : Reads s h k l Q) (hm : reader h = k h)
    (hn : n s = l s) : Reads s h reader n Q := by
  unfold Reads at f ⊢
  rwa [hm, hn]

end Reads

namespace Tracks

variable {m : HeapM α} {n : StoreM β} {Q : World → β → α → Prop}

theorem read {reader : HeapReader α} {R : β → α → Prop} (rep : Rep w s h) (f : Reads s h reader n R) :
    Tracks w s h (liftM reader) n fun w' b a => w' = w ∧ R b a := by
  unfold Reads at f
  unfold Tracks Follows
  rw [HeapM.run_lift]
  generalize reader h = x, n s = y at f ⊢
  cases f with
  | ok q => exact .ok w rep .refl ⟨rfl, q⟩
  | error same => exact .error same trivial
  | fault => exact .fault
  | wild => exact .wild

theorem answer {a : α} {b : β} (rep : Rep w s h) (q : Q w b a) : Tracks w s h (pure a) (pure b) Q :=
  Follows.pure rep q

/-- One action after another. -/
theorem bind {k : α → HeapM γ} {l : β → StoreM δ} {R : World → δ → γ → Prop} (f : Tracks w s h m n Q)
    (next : ∀ b s' a h' w', Rep w' s' h' → Keeps w s w' s' → Q w' b a → Tracks w' s' h' (k a) (l b) R) :
    Tracks w s h (m >>= k) (n >>= l) R :=
  Follows.bind f next

theorem weaken {Q' : World → β → α → Prop} (f : Tracks w s h m n Q) (more : ∀ w' b a, Q w' b a → Q' w' b a) :
    Tracks w s h m n Q' :=
  Follows.weaken f more

/-- An observation comes first. -/
theorem read_bind {reader : HeapReader α} {R : β → α → Prop} {k : α → HeapM γ} {l : β → StoreM δ}
    {Q : World → δ → γ → Prop} (f : Reads s h reader n R) (next : ∀ b a, R b a → Tracks w s h (k a) (l b) Q) :
    Tracks w s h (liftM reader >>= k) (n >>= l) Q := by
  unfold Reads at f
  unfold Tracks Follows at next ⊢
  rw [run_bind, run_bind, HeapM.run_lift]
  generalize reader h = x, n s = y at f ⊢
  cases f with
  | ok q => exact next _ _ q
  | error same => exact .error same trivial
  | fault => exact .fault
  | wild => exact .wild

/-- The heap is observed where the store need not be. -/
theorem reading {reader : HeapReader γ} {x : γ} {k : γ → HeapM α} (run : reader h = .ok x) (next : Tracks w s h (k x) n Q) :
    Tracks w s h (liftM reader >>= k) n Q :=
  next.congr (by rw [run_bind, HeapM.run_lift, run]) rfl

/-- Both fail for the same cause. -/
theorem rejects {k k' : HeapError} {f : γ → HeapM α} {g : δ → StoreM β} (same : k.erase = k') :
    Tracks w s h (liftM (Heap.reject k : HeapReader γ) >>= f) (Ideal.reject k' >>= g) Q :=
  Matches.error (congrArg MachineError.heap same) trivial

/-- What is seen of an object decides how both go on. -/
theorem look {view : Obj → Option δ} {l : δ → StoreM β} (rep : Rep w s h) (ha : w.home r a)
    (next : ∀ o x, s.objects[r]? = some o → view o = some x → w.Has h r a o → Tracks w s h m (l x) Q) :
    Tracks w s h m (Ideal.look view r >>= l) Q := by
  obtain ⟨o, ho, has⟩ := rep.object r a ha
  cases hx : view o with
  | none => exact .wild (by rw [run_bind, Ideal.look, ho, Option.bind, hx])
  | some x => exact .ideal (by rw [Ideal.look, ho, Option.bind, hx]) (next o x ho hx has)

/-! ### Making and changing objects -/

theorem exhausted {m : HeapM α} (full : Heap.NoMemory m h) : Tracks w s h m n Q := by
  obtain ⟨size, h', run⟩ := full
  unfold Tracks Follows
  rw [run]
  exact .full ⟨size, rfl⟩

/-- An object changes in place. -/
theorem mutate (rep : Rep w s h) (ha : w.home r a) {x : α} {y : β} {k : Nat} {P : Nat → Prop} (run : m h = .ok x h')
    (run' : n s = .ok y (s.set r o)) (e : Heap.Evolves h h.Allocated h' P []) (part : ∀ b, P b → w.owns r k b)
    (has : w.Has h' r a o) (q : Q w y x) : Tracks w s h m n Q := by
  unfold Tracks Follows
  rw [run, run']
  refine .ok w (rep.mutate e ha part has) (.mutate rfl rfl ?_) q
  exact List.length_set

/-- What stays where it is: objects reachable from the roots and some protected addresses. -/
def Stays (w : World) (h : Heap) (ρ : List Nat) (w' : World) : Prop :=
  ∀ r a, w.home r a → h.Live ρ a → w'.home r a

variable {L : Nat → Prop} {ρ N : List Nat} {M : List (Nat × Nat)} {p : Nat → Nat}

theorem keeps_evolve (rep : Rep w s h) (length : s.objects.length ≤ s'.objects.length)
    (new : ∀ b, (0, b) ∈ M → s.objects.length ≤ r) (spot : r < s.objects.length → p 0 = w.part r 0) (contexts : s'.contexts = s.contexts)
    (temporaries : s'.temporaries = s.temporaries) : Keeps w s (w.evolve (h.Live ρ) r M p) s' where
  capacity := rfl
  origin := rfl
  length := length
  old := by
    rintro q b (⟨hb, _⟩ | ⟨rfl, hb⟩) hq
    · exact hb
    · exact absurd (new b hb) (Nat.not_le.mpr hq)
  spot := by
    intro q hq
    change (if q = r then p else w.part q) 0 = w.part q 0
    split
    next e => exact e ▸ spot (e ▸ hq)
    next => rfl
  contexts := contexts ▸ List.prefix_rfl
  temporaries := temporaries ▸ List.prefix_rfl
  placed := fun q hq b hb => World.home_evolve hb (.root (rep.root hb hq))

/-- An object is made. -/
theorem make {m : HeapM Nat} {n : StoreM Ref} {Q : World → Ref → Nat → Prop} (rep : Rep w s h)
    (good : ∀ b ∈ ρ, h.Allocated b) (run' : n s = .ok s.objects.length (s.push o))
    (made : Heap.NoMemory m h ∨ ∃ a h' M p, m h = .ok a h' ∧
      Heap.Evolves h (h.Live ρ) h' (fun _ => False) (M.map Prod.snd) ∧
      (∀ k k' b, (k, b) ∈ M → (k', b) ∈ M → k = k') ∧ (∀ b, (0, b) ∈ M ↔ b = a) ∧ p 0 = a ∧
      (w.evolve (h.Live ρ) s.objects.length M p).Has h' s.objects.length a o)
    (more : ∀ w' a, w'.home s.objects.length a → Stays w h ρ w' → Q w' s.objects.length a) : Tracks w s h m n Q := by
  rcases made with full | ⟨a, h', M, p, run, e, roles, main, start, has⟩
  · exact exhausted full
  unfold Tracks Follows
  rw [run, run']
  have new (k b : Nat) (hb : (k, b) ∈ M) : b ∈ M.map Prod.snd := List.mem_map_of_mem hb
  refine .ok _ (rep.add (.live rep.tidy good) e new roles main start has)
    (keeps_evolve rep ?_ (fun _ _ => le_rfl) (fun no => absurd no (Nat.lt_irrefl _)) rfl rfl) ?_
  · change s.objects.length ≤ (s.objects ++ [o]).length
    simp
  · exact more _ a (World.owns_evolve_new ((main a).mpr rfl)) fun q b hb lb => World.home_evolve hb lb

/-- A part of an object changes and may move. -/
theorem change (rep : Rep w s h) (good : ∀ b ∈ ρ, h.Allocated b) (ha : w.home r a) (la : h.Live ρ a) {k : Nat}
    {P : Nat → Prop} {y : β} (run' : n s = .ok y (s.set r o)) (part : ∀ b, P b → w.owns r k b) (sub : k ≠ 0)
    (made : Heap.NoMemory m h ∨ ∃ x h' N, m h = .ok x h' ∧ Heap.Evolves h (h.Live ρ) h' P N ∧
      (w.evolve (h.Live ρ) r (N.map (Prod.mk k)) (w.part r)).Has h' r a o ∧
      ∀ w', Stays w h ρ w' → Q w' y x) : Tracks w s h m n Q := by
  rcases made with full | ⟨x, h', N, run, e, has, q⟩
  · exact exhausted full
  unfold Tracks Follows
  rw [run, run']
  refine .ok _ (rep.change (.live rep.tidy good) e ha la (fun b _ hb => part b hb) (.inl sub) has)
    (keeps_evolve rep ?_ (fun b hb => ?_) (fun _ => rfl) rfl rfl) (q _ fun q b hb lb => World.home_evolve hb lb)
  · exact Nat.le_of_eq List.length_set.symm
  · obtain ⟨c, _, eq⟩ := List.mem_map.mp hb
    cases eq
    exact absurd rfl sub

/-- After an object has been replaced, it is known what it is. -/
theorem afterReplace {k : α → HeapM γ} {l : Unit → StoreM δ} {R : World → δ → γ → Prop}
    (f : Tracks w s h m (replace r o) fun w' _ _ => w' = w)
    (next : ∀ a h', Rep w (s.set r o) h' → Tracks w (s.set r o) h' (k a) (l ()) R) :
    Tracks w s h (m >>= k) (replace r o >>= l) R := by
  have run : replace r o s = .ok () (s.set r o) := rfl
  unfold Tracks Follows at f next ⊢
  rw [run] at f
  rw [run_bind, run_bind, run]
  generalize m h = x at f ⊢
  cases f with
  | full full => exact .full full
  | @ok a h' _ _ w' rel keeps q =>
    subst q
    have g := next a h' rel
    simp only
    generalize k _ _ = x, l _ _ = y at g ⊢
    cases g with
    | full full => exact .full full
    | ok w'' rel' keeps' q' => exact .ok w'' rel' (keeps.trans keeps') q'
    | error same failed => exact .error same failed
    | fault => exact .fault
    | wild => exact .wild

/-! ### Protection -/

theorem withRoots {as : List Nat} {xs : List Ref} (rep : Rep w s h) (homes : List.Forall₂ w.home xs as)
    (inner : Rep w (s.rooting xs) (h.rooting as) → Tracks w (s.rooting xs) (h.rooting as) m n Q) :
    Tracks w s h (Heap.withRoots as m) (Ideal.withRoots xs n) fun w' b x =>
      Q w' b x ∧ ∀ r ∈ xs, ∀ a, w.home r a → w'.home r a := by
  have inner := inner (rep.rooting homes)
  unfold Tracks Follows at inner ⊢
  unfold Heap.withRoots Ideal.withRoots
  rw [Heap.rooting, Store.rooting] at inner
  generalize m _ = x, n _ = y at inner ⊢
  cases inner with
  | full full => exact .full full
  | error same _ => exact .error same trivial
  | fault => exact .fault
  | wild => exact .wild
  | ok w' rel keeps q =>
    rename_i b c d t
    have rel : Rep w' t c := rel
    obtain ⟨extra, eq⟩ : s.temporaries ++ xs <+: t.temporaries := keeps.temporaries
    have size : h.temporaries.size = s.temporaries.length := by
      rw [← Array.length_toList]
      exact rep.temporaries.length_eq.symm
    have front : t.temporaries.take s.temporaries.length = s.temporaries := by
      rw [← eq, List.append_assoc, List.take_left]
    refine .ok w' ?_ ⟨keeps.capacity, keeps.origin, keeps.length, keeps.old, keeps.spot, keeps.contexts, ?_, ?_⟩ ⟨q, ?_⟩
    · change Rep w' { t with temporaries := t.temporaries.take s.temporaries.length } _
      refine rel.reroot ?_ rfl rel.contexts ?_
      · exact ⟨rfl, rfl, rfl⟩
      · have := List.forall₂_take s.temporaries.length rel.temporaries
        simpa [size] using this
    · change s.temporaries <+: t.temporaries.take s.temporaries.length
      rw [front]
    · exact fun r hr => keeps.placed r (by
        rcases List.mem_append.mp hr with hr | hr
        · exact List.mem_append_left _ hr
        · exact List.mem_append_right _ (List.mem_append_left _ hr))
    · exact fun r hr => keeps.placed r (List.mem_append_right _ (List.mem_append_right _ hr))

theorem pushRoot (rep : Rep w s h) (ha : w.home r a) :
    Tracks w s h (Heap.pushRoot a) (Ideal.pushRoot r) fun w' _ _ => w' = w := by
  refine Matches.ok (Q := fun w' _ _ => w' = w) (t := { s with temporaries := s.temporaries ++ [r] })
    (c := { h with temporaries := h.temporaries.push a }) w ?_ ?_ rfl
  · refine rep.reroot ⟨rfl, rfl, rfl⟩ rfl rep.contexts ?_
    rw [Array.toList_push]
    exact List.rel_append rep.temporaries (.cons ha .nil)
  · refine ⟨rfl, rfl, le_rfl, fun _ _ ha _ => ha, fun _ _ => rfl, List.prefix_rfl, ?_, fun _ _ _ ha => ha⟩
    exact List.prefix_append _ _

theorem registerContext (rep : Rep w s h) (ha : w.home r a) :
    Tracks w s h (Heap.registerContext a) (Ideal.registerContext r) fun w' _ _ => w' = w := by
  refine Matches.ok (Q := fun w' _ _ => w' = w) (t := { s with contexts := s.contexts ++ [r] })
    (c := { h with contexts := h.contexts ++ [a] }) w ?_ ?_ rfl
  · exact rep.reroot ⟨rfl, rfl, rfl⟩ rfl (List.rel_append rep.contexts (.cons ha .nil)) rep.temporaries
  · refine ⟨rfl, rfl, le_rfl, fun _ _ ha _ => ha, fun _ _ => rfl, ?_, List.prefix_rfl, fun _ _ _ ha => ha⟩
    exact List.prefix_append _ _

end Tracks

end FiberMachine
