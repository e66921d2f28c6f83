import FiberMachine.Proofs.Sequences

/-!
# What happens elsewhere

Between two operations on an object other things happen in its heap: blocks are allocated, filled in and released, the collector runs,
addresses are protected and released. An object that is in use while the collector may run, and that nobody writes into, is not touched by
any of it. Histories of an object are therefore told over its own operations and over everything else, and a relation that every step
keeps is kept by whole histories.
-/

namespace FiberMachine

/-- Steps with the labels that they show, one after the other. -/
inductive Steps {σ α : Type} (step : σ → α → σ → Prop) : σ → List α → σ → Prop where
  | nil {s : σ} : Steps step s [] s
  | cons {s s' s'' : σ} {a : α} {as : List α} (first : step s a s') (rest : Steps step s' as s'') : Steps step s (a :: as) s''

theorem Steps.append {σ α : Type} {step : σ → α → σ → Prop} {s s' s'' : σ} {as bs : List α} (first : Steps step s as s')
    (next : Steps step s' bs s'') : Steps step s (as ++ bs) s'' := by
  induction first with
  | nil => exact next
  | cons one _ ih => exact .cons one (ih next)

/-- If every step of one system is a step of another with the same label, so is every history. -/
theorem Steps.simulate {σ τ α : Type} {step : σ → α → σ → Prop} {step' : τ → α → τ → Prop} {R : σ → τ → Prop}
    (each : ∀ {s t a s'}, R s t → step s a s' → ∃ t', step' t a t' ∧ R s' t') {s s' : σ} {t : τ} {as : List α}
    (steps : Steps step s as s') (related : R s t) : ∃ t', Steps step' t as t' ∧ R s' t' := by
  induction steps generalizing t with
  | nil => exact ⟨t, .nil, related⟩
  | cons first _ ih =>
    obtain ⟨t₁, step, related₁⟩ := each related first
    obtain ⟨t', rest, related'⟩ := ih related₁
    exact ⟨t', .cons step rest, related'⟩

/-! ### Names of what is held -/

variable {α : Type} {σ : Nat → Option α} {names : List Nat} {a b : Nat} {o : Option α} {x : α}

/-- The names under which something is held. -/
def Names (names : List Nat) (σ : Nat → Option α) : Prop := ∀ a, a ∈ names ↔ (σ a).isSome

/-- What stands under a name after something is put under one, or taken away. -/
theorem update_eq_some : Function.update σ a o b = some x ↔ b = a ∧ o = some x ∨ b ≠ a ∧ σ b = some x := by
  rw [Function.update_apply]
  split
  next eq => simp [eq]
  next ne => simp [ne]

namespace Names

theorem get (known : Names names σ) (ha : a ∈ names) : ∃ x, σ a = some x := Option.isSome_iff_exists.mp ((known a).mp ha)

theorem mem (known : Names names σ) (ha : σ a = some x) : a ∈ names := (known a).mpr (by rw [ha]; rfl)

/-- Something else is held under a name. -/
theorem set {y : α} (known : Names names σ) (ha : σ a = some x) : Names names (Function.update σ a (some y)) := fun b => by
  rw [known b, Option.isSome_iff_exists, Option.isSome_iff_exists]
  by_cases eq : b = a <;> simp [eq, ha]

/-- Something is held under another name. -/
theorem add (known : Names names σ) : Names (a :: names) (Function.update σ a (some x)) := fun b => by
  rw [List.mem_cons, known b, Option.isSome_iff_exists, Option.isSome_iff_exists]
  by_cases eq : b = a <;> simp [eq]

/-- A name is let go of. -/
theorem drop (known : Names names σ) : Names (names.filter (· ≠ a)) (Function.update σ a none) := fun b => by
  rw [List.mem_filter, known b, Option.isSome_iff_exists, Option.isSome_iff_exists]
  by_cases eq : b = a <;> simp [eq]

end Names

namespace Heap

/-- How an action ends: its answer or failure, and the heap that it leaves. -/
def ending {α : Type} (action : HeapM α) (h : Heap) : Except HeapFailure α × Heap :=
  match action h with
  | .ok x h' => (.ok x, h')
  | .error e h' => (.error e, h')

theorem ending_of_ok {α : Type} {action : HeapM α} {h h' : Heap} {x : α} (run : action h = .ok x h') : ending action h = (.ok x, h') := by
  rw [ending, run]

/-- The action ends with that answer or failure, and leaves the second heap. -/
def Ends {α : Type} (action : HeapM α) (h : Heap) (r : Except HeapFailure α) (h' : Heap) : Prop := ending action h = (r, h')

variable {α : Type} {action : HeapM α} {h h' k : Heap} {x : α} {e : HeapFailure} {r : Except HeapFailure α} {a b i n l : Nat} {t : Tag}

theorem Ends.of_ok (ends : Ends action h r k) (run : action h = .ok x h') : r = .ok x ∧ k = h' := by
  rw [Ends, ending, run, Prod.mk.injEq] at ends
  exact ends.imp Eq.symm Eq.symm

theorem Ends.of_error (ends : Ends action h r k) (run : action h = .error e h') : r = .error e ∧ k = h' := by
  rw [Ends, ending, run, Prod.mk.injEq] at ends
  exact ends.imp Eq.symm Eq.symm

/-- Reading leaves the heap as it is. -/
theorem Ends.of_reader {reader : HeapReader α} (ends : Ends (reader : HeapM α) h r k) : r = reader h ∧ k = h := by
  cases run : reader h with
  | ok x => exact ends.of_ok (by rw [HeapM.run_lift, run])
  | error e => exact ends.of_error (by rw [HeapM.run_lift, run])

/-- An action whose answer is looked at ends as the action does. -/
theorem Ends.inner {β : Type} {f : α → β} {r : Except HeapFailure β} (ends : Ends (do return f (← action)) h r k) :
    ∃ r', Ends action h r' k ∧ r = r'.map f := by
  cases run : action h with
  | ok x h' =>
    obtain ⟨rfl, rfl⟩ := ends.of_ok (by rw [HeapM.run_bind, run]; rfl)
    exact ⟨.ok x, ending_of_ok run, rfl⟩
  | error e h' =>
    obtain ⟨rfl, rfl⟩ := ends.of_error (by rw [HeapM.run_bind, run])
    exact ⟨.error e, by rw [Ends, ending, run], rfl⟩

/-! ### Histories -/

/-- What somebody can do in a heap who keeps something in mind: the actions, what they ask for, and what is learnt from an answer. -/
structure Client (K A R : Type) where
  run : A → HeapM R
  allowed : Heap → K → A → Prop
  learn : K → A → Except HeapFailure R → K

variable {K A R : Type} {client : Client K A R} {s s' : Heap × K} {actions : List A}

/-- An action that is allowed, with its answer. -/
structure Client.Step (client : Client K A R) (s : Heap × K) (event : A × Except HeapFailure R) (s' : Heap × K) : Prop where
  allowed : client.allowed s.1 s.2 event.1
  ends : Ends (client.run event.1) s.1 event.2 s'.1
  learn : s'.2 = client.learn s.2 event.1 event.2

/-- What an action leaves of the heap, and what is then known. -/
def Client.next (client : Client K A R) (s : Heap × K) (action : A) : Heap × K :=
  ((ending (client.run action) s.1).2, client.learn s.2 action (ending (client.run action) s.1).1)

/-- What is written down of some actions, one after the other, and where they lead. -/
def Client.history (client : Client K A R) (s : Heap × K) : List A → List (A × Except HeapFailure R) × (Heap × K)
  | [] => ([], s)
  | action :: actions =>
    let rest := client.history (client.next s action) actions
    ((action, (ending (client.run action) s.1).1) :: rest.1, rest.2)

/-- Each of some actions is allowed when it is its turn. -/
def Client.Permits (client : Client K A R) (s : Heap × K) : List A → Prop
  | [] => True
  | action :: actions => client.allowed s.1 s.2 action ∧ client.Permits (client.next s action) actions

theorem Client.Permits.steps (permits : client.Permits s actions) :
    Steps client.Step s (client.history s actions).1 (client.history s actions).2 := by
  induction actions generalizing s with
  | nil => exact .nil
  | cons action actions ih =>
    have step : client.Step s (action, (ending (client.run action) s.1).1) (client.next s action) := ⟨permits.1, rfl, rfl⟩
    exact .cons step (ih permits.2)

/-! ### Operations -/

/-- An untagged block is a block with the tag of the unassigned object. -/
theorem Placed.made (placed : h.Placed h' a l) (s : h'.Sound) : Made h h' a .unassigned l where
  sound := s
  levels := placed.levels
  contexts := placed.contexts
  temporaries := placed.temporaries
  stats := placed.stats
  fresh := placed.fresh
  allocated := placed.allocated
  words := placed.words
  tag := by
    rw [tagAt, placed.header, Header.tag_fresh]
    rfl
  level := placed.level
  payload := placed.payload

theorem Rewritten.kept (r : Rewritten h h' a) (s : h.Sound) (ha : h.Allocated a) (hb : h.Allocated b) (ne : b ≠ a) : Kept h h' b :=
  ⟨(r.allocated b).mpr hb, fun x hx hxb => r.outside x fun inside => ne (s.wellFormed.eq_of_mem ha hb inside.1 inside.2 hx hxb).symm⟩

namespace Operation

/-- What an operation asks of its caller if the heap is to stay tidy: a tagged block has room for the references that its tag calls for,
only allocated blocks are protected, and what is written, tagged or released leaves every block laid out and referring to allocated
blocks. -/
def Careful (h : Heap) : Operation → Prop
  | .allocate _ | .collect | .releaseRoots _ | .retireContext _ => True
  | .allocateTagged t n => t.Fits n
  | .pushRoot a | .registerContext a => h.Allocated a
  | .release a => (h.Allocated a ∧ a ≠ unassigned) ∧ ((Operation.release a).after h).Tidy
  | .setTag a t => h.Allocated a ∧ ((Operation.setTag a t).after h).Tidy
  | .write a i w => (h.Allocated a ∧ i < h.room a) ∧ ((Operation.write a i w).after h).Tidy

/-- The operation may run the collector. -/
def Collects : Operation → Prop
  | .allocate _ | .allocateTagged _ _ | .collect => True
  | .release _ | .setTag _ _ | .write _ _ _ | .pushRoot _ | .releaseRoots _ | .registerContext _ | .retireContext _ => False

/-- The operation changes or releases the block at `b`. -/
def Changes (b : Addr) : Operation → Prop
  | .release a | .setTag a _ | .write a _ _ => b = a
  | .allocate _ | .allocateTagged _ _ | .collect | .pushRoot _ | .releaseRoots _ | .registerContext _ | .retireContext _ => False

/-- What keeps the block at `b` as it is while an operation is made. -/
structure Spares (h : Heap) (b : Addr) (op : Operation) : Prop where
  used : op.Collects → h.Reachable b
  other : ¬op.Changes b

variable {op : Operation}

theorem Careful.allowed (careful : op.Careful h) (tidy : h.Tidy) : op.Allowed h := by
  cases op with
  | allocate size => exact fun _ => tidy.consistent.traceable
  | allocateTagged t n => exact fun _ => tidy.consistent.traceable
  | collect => exact tidy.consistent.traceable
  | release a => exact careful.1
  | setTag a t => exact careful.1
  | write a i w => exact careful.1
  | pushRoot _ | releaseRoots _ | registerContext _ | retireContext _ => trivial

/-- The heap stays tidy, and a block that is spared stays as it is. -/
def Preserves (op : Operation) (h h' : Heap) : Prop :=
  h'.Tidy ∧ ∀ b, h.Allocated b → op.Spares h b → Kept h h' b

theorem Preserves.of_evolves {P L : Nat → Prop} {N : List Nat} (e : Evolves h L h' P N)
    (kept : ∀ b, h.Allocated b → op.Spares h b → L b ∧ ¬P b) : op.Preserves h h' :=
  ⟨e.tidy, fun b hb spares => e.kept b (kept b hb spares).1 (kept b hb spares).2⟩

theorem Preserves.of_sameArena (tidy : h.Tidy) (same : h.SameArena h') (root : ∀ a ∈ h'.roots, h.Allocated a) : op.Preserves h h' :=
  ⟨tidy.sameArena same root, fun _ hb _ => same.kept hb⟩

/-- An operation that is made with care succeeds or finds no memory. -/
theorem Careful.preserves (careful : op.Careful h) (tidy : h.Tidy) : op.Preserves h (op.after h) := by
  have s := tidy.sound
  have answered {k : Heap} (run : op.run h = .ok () k) : op.after h = k := by rw [after, run]
  have failed {k : Heap} {e : HeapFailure} (run : op.run h = .error e k) : op.after h = k := by rw [after, run]
  cases op with
  | allocate size =>
    obtain ⟨g, maybe, _, outcome⟩ := s.allocate fun (_ : h.RunsCollector size) => tidy.consistent.traceable
    have e := maybe.evolves tidy
    have live (b : Nat) (hb : h.Reachable b) : Kept h g b := e.kept b (live_nil.mpr hb) id
    rcases outcome with run | ⟨a, h', run, placed, s'⟩
    · rw [failed (by simp only [Operation.run, HeapM.run_bind, run]; rfl)]
      exact ⟨e.tidy, fun b _ spares => live b (spares.used trivial)⟩
    · rw [answered (k := h') (by simp only [Operation.run, HeapM.run_bind, run, HeapM.run_pure])]
      have made := placed.made s'
      exact ⟨made.tidy e.tidy (Tag.fits_fields rfl fun p hp => absurd hp List.not_mem_nil),
        fun b _ spares => (live b (spares.used trivial)).trans (made.kept (live b (spares.used trivial)).allocated)⟩
  | allocateTagged t n =>
    rcases tidy.allocateTagged_spec careful with ⟨m, h', run, e⟩ | ⟨a, h', run, f⟩
    · rw [failed (by simp only [Operation.run, HeapM.run_bind, run]; rfl)]
      exact .of_evolves e fun b _ spares => ⟨live_nil.mpr (spares.used trivial), id⟩
    · rw [answered (k := h') (by simp only [Operation.run, HeapM.run_bind, run, HeapM.run_pure])]
      exact .of_evolves f.evolves fun b _ spares => ⟨live_nil.mpr (spares.used trivial), id⟩
  | collect =>
    obtain ⟨h', run, c⟩ := s.wellFormed.collect s.unmarked tidy.consistent.traceable
    have maybe : h.MaybeCollected h' := .inr c
    rw [answered run]
    exact .of_evolves (maybe.evolves tidy) fun b _ spares => ⟨live_nil.mpr (spares.used trivial), id⟩
  | release a =>
    obtain ⟨h', run, _, _, allocated, words⟩ := s.release careful.1.1 careful.1.2
    refine ⟨careful.2, fun b hb spares => ?_⟩
    rw [answered run]
    exact ⟨(allocated b).mpr ⟨hb, spares.other⟩, words b hb spares.other⟩
  | setTag a t =>
    obtain ⟨h', run, r, _⟩ := s.setTag (t := t) careful.1
    refine ⟨careful.2, fun b hb spares => ?_⟩
    rw [answered run]
    exact r.kept s careful.1 hb spares.other
  | write a i w =>
    obtain ⟨h', run, r, _⟩ := s.write (w := w) careful.1.1 careful.1.2
    refine ⟨careful.2, fun b hb spares => ?_⟩
    rw [answered run]
    exact r.kept s careful.1.1 hb spares.other
  | pushRoot a =>
    refine .of_sameArena tidy ⟨rfl, rfl, rfl⟩ fun b hb => ?_
    have roots : ((Operation.pushRoot a).after h).roots = h.roots ++ [a] := by
      simp [after, Operation.run, Heap.pushRoot, HeapM.run_modify, Heap.roots]
    rw [roots] at hb
    rcases List.mem_append.mp hb with hb | hb
    · exact tidy.root hb
    · exact List.mem_singleton.mp hb ▸ careful
  | releaseRoots mark =>
    refine .of_sameArena tidy ⟨rfl, rfl, rfl⟩ fun b hb => tidy.root ?_
    have roots : ((Operation.releaseRoots mark).after h).roots = unassigned :: h.contexts ++ (h.temporaries.shrink mark).toList := rfl
    rw [roots, Array.toList_shrink] at hb
    exact List.mem_append.mpr ((List.mem_append.mp hb).imp_right fun hb => List.mem_of_mem_take hb)
  | registerContext a =>
    refine .of_sameArena tidy ⟨rfl, rfl, rfl⟩ fun b hb => ?_
    have roots : ((Operation.registerContext a).after h).roots = unassigned :: (h.contexts ++ [a]) ++ h.temporaries.toList := rfl
    rw [roots, List.cons_append, List.mem_cons, List.mem_append, List.mem_append] at hb
    rcases hb with rfl | (hb | hb) | hb
    · exact s.sentinel
    · exact tidy.root (List.mem_append_left _ (List.mem_cons_of_mem _ hb))
    · exact List.mem_singleton.mp hb ▸ careful
    · exact tidy.root (List.mem_append_right _ hb)
  | retireContext a =>
    refine .of_sameArena tidy ⟨rfl, rfl, rfl⟩ fun b hb => tidy.root ?_
    have roots : ((Operation.retireContext a).after h).roots = unassigned :: h.contexts.erase a ++ h.temporaries.toList := rfl
    rw [roots] at hb
    simp only [List.cons_append, List.mem_cons, List.mem_append] at hb
    simp only [Heap.roots, List.cons_append, List.mem_cons, List.mem_append]
    exact hb.imp_right fun hb => hb.imp_left List.mem_of_mem_erase

/-- However an operation elsewhere ends, it leaves what it spares. -/
theorem Careful.ends {r : Except HeapFailure Unit} (careful : op.Careful h) (tidy : h.Tidy) (ends : Ends op.run h r h') :
    op.Preserves h h' := by
  have left : op.after h = h' := by
    cases run : op.run h with
    | ok _ _ => rw [after, run, (ends.of_ok run).2]
    | error _ _ => rw [after, run, (ends.of_error run).2]
  exact left ▸ careful.preserves tidy

end Operation

/-! ### What an object keeps in use -/

/-- Addresses that are all protected. -/
def Rooted (h : Heap) (held : List Addr) : Prop := ∀ b ∈ held, b ∈ h.roots

instance {held : List Addr} : Decidable (h.Rooted held) := inferInstanceAs (Decidable (∀ b ∈ held, b ∈ h.roots))

theorem Rooted.reachable {held : List Addr} (rooted : h.Rooted held) : ∀ b ∈ held, h.Reachable b := fun b hb => .start (rooted b hb)

theorem Rooted.live {held rs : List Addr} (rooted : h.Rooted held) : ∀ b ∈ held, h.Live rs b := fun b hb => .root (rooted b hb)

/-- What can be reached from a block is the block itself and what can be reached from what it refers to. -/
theorem reaches_singleton : h.Reaches [a] b ↔ b = a ∨ ∃ c, h.Child a c ∧ h.Reaches [c] b := by
  constructor
  · intro r
    induction r with
    | start hb => exact .inl (List.mem_singleton.mp hb)
    | child _ hc ih =>
      rcases ih with rfl | ⟨d, hd, r⟩
      · exact .inr ⟨_, hc, .start (List.mem_singleton_self _)⟩
      · exact .inr ⟨d, hd, r.child hc⟩
  · rintro (rfl | ⟨c, hc, r⟩)
    · exact .start (List.mem_singleton_self _)
    · refine r.mono fun d hd => ?_
      rw [List.mem_singleton.mp hd]
      exact .child (.start (List.mem_singleton_self _)) hc

variable {d p : Nat} {u : Tag} {xs : List Nat}

theorem IsSeq.reaches_iff (s : h.IsSeq d t xs) (tidy : h.Tidy) : h.Reaches [d] b ↔ b = d ∨ ∃ x ∈ xs, h.Reaches [x] b := by
  rw [reaches_singleton]
  exact or_congr_right (exists_congr fun c => and_congr_left' ⟨s.child_mem tidy, s.child tidy⟩)

/-- An object that refers to a sequence and to nothing else keeps in use what the items of the sequence reach. -/
theorem IsSeq.reaches_owner (s : h.IsSeq d t xs) (tidy : h.Tidy) (is : h.Is a u n) (layout : u.layout = .fields [p])
    (owner : h.ref a p = d) : h.Reaches [a] b ↔ b = a ∨ b = d ∨ ∃ x ∈ xs, h.Reaches [x] b := by
  have child (c : Nat) : h.Child a c ↔ c = d := by
    rw [tidy.child_iff is.allocated, childrenAt_eq, is.tag, layout]
    simp only [List.map_singleton, List.mem_singleton, owner]
  rw [reaches_singleton, ← s.reaches_iff tidy]
  simp only [child, exists_eq_left]

end Heap

end FiberMachine
