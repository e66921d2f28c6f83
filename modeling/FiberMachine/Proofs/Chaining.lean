import FiberMachine.Proofs.Elsewhere
import FiberMachine.Proofs.Lists

/-!
# Linked lists are sequences

Any number of linked lists live in one heap. Whatever is done to them, and whatever else goes on in the heap, each list that is held on to
is well linked: the nodes from the first on, one after the other, are as many as the list says, the last of them is where the list says,
each node refers back to the one before it, and both ends refer to nothing. No two lists share a node. The values along the nodes are
those of a sequence to whose end values are added, from whose front they are taken, and which loses the first value that fits when one
is taken out; nothing happens to the other lists. A list that is no longer held on to may be collected, and its nodes may be used again.
-/

namespace FiberMachine

namespace LinkedList

/-- What is done to linked lists, or elsewhere in their heap. A predicate is given with what it answers in the heap as it is. -/
inductive Action where
  | create
  | pushBack (a x : Addr)
  | popFront (a : Addr)
  | remove (a x : Addr)
  | takeFirst (a : Addr) (p : Addr → HeapReader Bool) (fits : Addr → Bool)
  | clear (a : Addr)
  | letGo (a : Addr)
  | elsewhere (op : Heap.Operation)

inductive Answer where
  | made (a : Addr)
  | done
  | taken (x : Option Addr)
  | found (whether : Bool)

abbrev Event := Action × Except HeapFailure Answer

def Action.run : Action → HeapM Answer
  | .create => do return .made (← LinkedList.create)
  | .pushBack a x => do return (fun _ => .done) (← LinkedList.pushBack a x)
  | .popFront a => do return .taken (← LinkedList.popFront a)
  | .remove a x => do return .found (← LinkedList.remove a x)
  | .takeFirst a p _ => do return .taken (← LinkedList.takeFirst a p)
  | .clear a => do return (fun _ => .done) (← LinkedList.clear a)
  | .letGo _ => return .done
  | .elsewhere op => do return (fun _ => .done) (← op.run)

/-- Only lists that are held on to are used, and these are in use whenever the collector may run. What is done elsewhere changes neither
them nor their nodes. -/
def Action.Allowed (h : Heap) (held : List Addr) : Action → Prop
  | .create => ∀ b ∈ held, h.Reachable b
  | .pushBack a x => a ∈ held ∧ h.Allocated x ∧ ∀ b ∈ held, h.Live [a, x] b
  | .popFront a | .remove a _ | .clear a => a ∈ held
  | .takeFirst a p fits => a ∈ held ∧ ∀ xs, LinkedList.values a h = .ok xs → ∀ x ∈ xs, p x h = .ok (fits x)
  | .letGo _ => True
  | .elsewhere op => op.Careful h ∧ ∀ b ∈ held, op.Spares h b ∧ ∀ ns xs, h.IsList b ns xs → ∀ n ∈ ns, ¬op.Changes n

/-- The lists that are held on to after an action. -/
def Action.holds (held : List Addr) : Action → Except HeapFailure Answer → List Addr
  | .create, .ok (.made a) => a :: held
  | .letGo a, _ => held.filter (· ≠ a)
  | _, _ => held

def client : Heap.Client (List Addr) Action Answer where
  run := Action.run
  allowed := Action.Allowed
  learn := Action.holds

end LinkedList

/-- The sequences that are held under some names. -/
abbrev Chains := Addr → Option (List Addr)

/-- How sequences answer. -/
inductive Chains.Step : Chains → LinkedList.Event → Chains → Prop where
  | made {σ : Chains} {a : Addr} (new : σ a = none) : Step σ (.create, .ok (.made a)) (Function.update σ a (some []))
  | unmade {σ : Chains} {n : Nat} : Step σ (.create, .error (.error (.outOfMemory n))) σ
  | pushed {σ : Chains} {a x : Addr} {xs : List Addr} (held : σ a = some xs) :
    Step σ (.pushBack a x, .ok .done) (Function.update σ a (some (xs ++ [x])))
  | starved {σ : Chains} {a x : Addr} {n : Nat} : Step σ (.pushBack a x, .error (.error (.outOfMemory n))) σ
  | popped {σ : Chains} {a : Addr} {xs : List Addr} (held : σ a = some xs) :
    Step σ (.popFront a, .ok (.taken xs.head?)) (Function.update σ a (some xs.tail))
  | removed {σ : Chains} {a x : Addr} {xs : List Addr} (held : σ a = some xs) :
    Step σ (.remove a x, .ok (.found (decide (x ∈ xs)))) (Function.update σ a (some (xs.erase x)))
  | taken {σ : Chains} {a : Addr} {p : Addr → HeapReader Bool} {fits : Addr → Bool} {xs : List Addr} (held : σ a = some xs) :
    Step σ (.takeFirst a p fits, .ok (.taken (xs.find? fits))) (Function.update σ a (some (xs.eraseP fits)))
  | cleared {σ : Chains} {a : Addr} {xs : List Addr} (held : σ a = some xs) :
    Step σ (.clear a, .ok .done) (Function.update σ a (some []))
  | dropped {σ : Chains} {a : Addr} : Step σ (.letGo a, .ok .done) (Function.update σ a none)
  | elsewhere {σ : Chains} {op : Heap.Operation} {r : Except HeapFailure LinkedList.Answer} : Step σ (.elsewhere op, r) σ

namespace Heap

/-- What can be seen of the list at `a`, with its nodes at the addresses `ns`. -/
structure ShowsList (h : Heap) (a : Addr) (ns xs : List Addr) : Prop where
  values : LinkedList.values a h = .ok xs
  length : LinkedList.length a h = .ok xs.length
  same : ns.length = xs.length
  distinct : ns.Nodup
  node : ∀ n ∈ ns, n ≠ unassigned
  first : LinkedList.first a h = .ok (nth ns 0)
  last : LinkedList.last a h = .ok (nthBefore ns ns.length)
  value : ∀ i < ns.length, LinkedList.value (nth ns i) h = .ok (nth xs i)
  before : ∀ i < ns.length, LinkedList.before (nth ns i) h = .ok (nthBefore ns i)
  after : ∀ i < ns.length, LinkedList.after (nth ns i) h = .ok (nth ns (i + 1))

/-- The lists in the heap hold the sequences and have their nodes to themselves. -/
structure Chained (h : Heap) (σ : Chains) (nodes : Addr → List Addr) : Prop where
  tidy : h.Tidy
  list : ∀ a xs, σ a = some xs → h.IsList a (nodes a) xs
  apart : ∀ a b xs ys, σ a = some xs → σ b = some ys → a ≠ b → (nodes a).Disjoint (nodes b)

variable {h h' : Heap} {a b n : Nat} {xs ys ns : List Nat} {σ : Chains} {nodes : Addr → List Addr} {L P : Nat → Prop} {N : List Nat}

theorem IsList.shows (is : h.IsList a ns xs) (tidy : h.Tidy) : h.ShowsList a ns xs where
  values := is.values_eq tidy
  length := is.same ▸ is.length_eq tidy
  same := is.same.symm
  distinct := is.nodup
  node n hn := (is.node n hn).1
  first := is.first_eq tidy
  last := is.last_eq tidy
  value _ := is.value_eq tidy
  before _ := is.before_eq tidy
  after _ := is.after_eq tidy

namespace Chained

/-- The blocks of one list are none of another. -/
theorem outside (c : Chained h σ nodes) (ha : σ a = some xs) (hb : σ b = some ys) (ne : b ≠ a) :
    ¬(b = a ∨ b ∈ nodes a) ∧ ∀ n ∈ nodes b, ¬(n = a ∨ n ∈ nodes a) := by
  have la := c.list a xs ha
  have lb := c.list b ys hb
  refine ⟨?_, fun n hn => ?_⟩
  · rintro (e | mem)
    · exact ne e
    · exact absurd (lb.is.tag.symm.trans (la.node b mem).2.tag) (by decide)
  · rintro (rfl | mem)
    · exact absurd (la.is.tag.symm.trans (lb.node n hn).2.tag) (by decide)
    · exact c.apart b a ys xs hb ha ne hn mem

/-- Nothing happens to the lists if their blocks stay as they are. -/
theorem kept (c : Chained h σ nodes) (tidy : h'.Tidy) (each : ∀ b ys, σ b = some ys → Kept h h' b ∧ ∀ n ∈ nodes b, Kept h h' n) :
    Chained h' σ nodes where
  tidy := tidy
  list b ys hb := (c.list b ys hb).kept (each b ys hb).1 (each b ys hb).2
  apart := c.apart

/-- One list is changed or made, and nothing else. -/
theorem replace (c : Chained h σ nodes) (e : Evolves h L h' P N)
    (others : ∀ b ys, σ b = some ys → b ≠ a → (L b ∧ ¬P b) ∧ ∀ n ∈ nodes b, L n ∧ ¬P n)
    (list : h'.IsList a ns xs) (own : ∀ n ∈ ns, P n ∨ n ∈ N) :
    Chained h' (Function.update σ a (some xs)) (Function.update nodes a ns) := by
  -- A node of the changed list is one that only this list had, or a new one, and no new block survives from before.
  have apart (b : Nat) (ys : List Nat) (hb : σ b = some ys) (ne : b ≠ a) : ns.Disjoint (nodes b) := by
    intro n hn hn'
    have old := (others b ys hb ne).2 n hn'
    exact (own n hn).elim old.2 fun new => (e.new n new).2 old.1
  refine ⟨e.tidy, fun b ys hb => ?_, fun b c' ys zs hb hc ne => ?_⟩
  · rcases update_eq_some.mp hb with ⟨rfl, here⟩ | ⟨apart, there⟩
    · rw [Function.update_self]
      exact Option.some.inj here ▸ list
    · obtain ⟨⟨live, other⟩, inner⟩ := others b ys there apart
      rw [Function.update_of_ne apart]
      exact (c.list b ys there).kept (e.kept b live other) fun n hn => e.kept n (inner n hn).1 (inner n hn).2
  · rcases update_eq_some.mp hb with ⟨rfl, -⟩ | ⟨nb, oldB⟩
    · rcases update_eq_some.mp hc with ⟨rfl, -⟩ | ⟨nc, oldC⟩
      · exact absurd rfl ne
      · rw [Function.update_self, Function.update_of_ne nc]
        exact apart c' zs oldC nc
    · rw [Function.update_of_ne nb]
      rcases update_eq_some.mp hc with ⟨rfl, -⟩ | ⟨nc, oldC⟩
      · rw [Function.update_self]
        exact (apart b ys oldB nb).symm
      · rw [Function.update_of_ne nc]
        exact c.apart b c' ys zs oldB oldC ne

/-- One list is changed without an allocation. -/
theorem change (c : Chained h σ nodes) (ha : σ a = some ys) (e : Evolves h h.Allocated h' (fun b => b = a ∨ b ∈ nodes a) [])
    (list : h'.IsList a ns xs) (sub : ∀ n ∈ ns, n ∈ nodes a) :
    Chained h' (Function.update σ a (some xs)) (Function.update nodes a ns) := by
  refine c.replace e (fun b zs hb ne => ?_) list fun n hn => .inl (.inr (sub n hn))
  have lb := c.list b zs hb
  obtain ⟨out, inner⟩ := c.outside ha hb ne
  exact ⟨⟨lb.is.allocated, out⟩, fun n hn => ⟨(lb.node n hn).2.allocated, inner n hn⟩⟩

/-- Lists that survive do so with their nodes. -/
theorem lives (c : Chained h σ nodes) (sv : h.Survives L) (live : ∀ b ys, σ b = some ys → L b) :
    ∀ b ys, σ b = some ys → L b ∧ ∀ n ∈ nodes b, L n :=
  fun b ys hb => ⟨live b ys hb, (c.list b ys hb).survives c.tidy sv (live b ys hb)⟩

/-- Nothing happens to lists that survive while nothing that survives is changed. -/
theorem survive (c : Chained h σ nodes) (e : Evolves h L h' (fun _ => False) N)
    (lives : ∀ b ys, σ b = some ys → L b ∧ ∀ n ∈ nodes b, L n) : Chained h' σ nodes :=
  c.kept e.tidy fun b ys hb => ⟨e.kept b (lives b ys hb).1 id, fun n hn => e.kept n ((lives b ys hb).2 n hn) id⟩

/-- A list is made. -/
theorem make (c : Chained h σ nodes) (f : Fresh h L h' a .list 3 fun _ => 0) (lives : ∀ b ys, σ b = some ys → L b ∧ ∀ n ∈ nodes b, L n) :
    Chained h' (Function.update σ a (some [])) (Function.update nodes a []) :=
  c.replace f.evolves (fun b ys hb _ => ⟨⟨(lives b ys hb).1, id⟩, fun n hn => ⟨(lives b ys hb).2 n hn, id⟩⟩) (.of_fresh f)
    fun _ hn => absurd hn List.not_mem_nil

/-- A node is added to a list. -/
theorem push {m x : Nat} (c : Chained h σ nodes) (ha : σ a = some xs) (e : Evolves h L h' (fun b => b = a ∨ b ∈ nodes a) [m])
    (is : h'.IsList a (nodes a ++ [m]) (xs ++ [x])) (lives : ∀ b ys, σ b = some ys → L b ∧ ∀ n ∈ nodes b, L n) :
    Chained h' (Function.update σ a (some (xs ++ [x]))) (Function.update nodes a (nodes a ++ [m])) := by
  refine c.replace e (fun b ys hb ne => ?_) is fun n hn => (List.mem_append.mp hn).imp_left .inr
  obtain ⟨out, inner⟩ := c.outside ha hb ne
  exact ⟨⟨(lives b ys hb).1, out⟩, fun n hn => ⟨(lives b ys hb).2 n hn, inner n hn⟩⟩

/-- A list is let go of. -/
theorem drop (c : Chained h σ nodes) : Chained h (Function.update σ a none) nodes := by
  have old {b : Nat} {ys : List Nat} (hb : Function.update σ a none b = some ys) : σ b = some ys :=
    (update_eq_some.mp hb).elim (fun no => nomatch no.2) And.right
  exact ⟨c.tidy, fun b ys hb => c.list b ys (old hb), fun b c' ys zs hb hc => c.apart b c' ys zs (old hb) (old hc)⟩

end Chained

/-- The lists that are held on to are chained. -/
def Chaining (s : Heap × List Addr) (σ : Chains) : Prop := Names s.2 σ ∧ ∃ nodes, Chained s.1 σ nodes

/-- A step of linked lists is a step of sequences. -/
theorem Chaining.step {s s' : Heap × List Addr} {event : LinkedList.Event} (chaining : Chaining s σ) (step : LinkedList.client.Step s event s') :
    ∃ σ', σ.Step event σ' ∧ Chaining s' σ' := by
  obtain ⟨h, held⟩ := s
  obtain ⟨h', held'⟩ := s'
  obtain ⟨action, r⟩ := event
  obtain ⟨names, nodes, c⟩ := chaining
  obtain ⟨allowed, ends, learn⟩ := step
  have tidy := c.tidy
  cases action with
  | create =>
    obtain ⟨_, inner, rfl⟩ := ends.inner
    have sv : h.Survives (h.Live []) := .live tidy fun r hr => absurd hr List.not_mem_nil
    have lives := c.lives sv fun b ys hb => live_nil.mpr (allowed b (names.mem hb))
    rcases tidy.allocateTagged_spec (t := .list) (n := 3) (Tag.fits_fields rfl (by decide)) with ⟨m, h₁, run, e⟩ | ⟨a, h₁, run, f⟩
    · obtain ⟨rfl, rfl⟩ := inner.of_error run
      cases learn
      exact ⟨σ, .unmade, names, nodes, c.survive e lives⟩
    · obtain ⟨rfl, rfl⟩ := inner.of_ok run
      cases learn
      have new : σ a = none := Option.eq_none_iff_forall_ne_some.mpr fun ys ha => f.new (lives a ys ha).1
      exact ⟨_, .made new, names.add, _, c.make f lives⟩
  | pushBack a x =>
    obtain ⟨_, inner, rfl⟩ := ends.inner
    obtain ⟨ha, hx, live⟩ := allowed
    obtain ⟨xs, ha⟩ := names.get ha
    have is := c.list a xs ha
    have sv : h.Survives (h.Live [a, x]) := .live tidy (by simp [is.is.allocated, hx])
    have lives := c.lives sv fun b ys hb => live b (names.mem hb)
    rcases is.pushBack_spec tidy hx with ⟨m, h₁, run, e⟩ | ⟨h₁, m, run, e, is'⟩
    · obtain ⟨rfl, rfl⟩ := inner.of_error run
      cases learn
      exact ⟨σ, .starved, names, nodes, c.survive e lives⟩
    · obtain ⟨rfl, rfl⟩ := inner.of_ok run
      cases learn
      exact ⟨_, .pushed ha, names.set ha, _, c.push ha e is' lives⟩
  | popFront a =>
    obtain ⟨_, inner, rfl⟩ := ends.inner
    obtain ⟨xs, ha⟩ := names.get allowed
    obtain ⟨h₁, ns, run, e, is, sub⟩ := (c.list a xs ha).popFront tidy
    obtain ⟨rfl, rfl⟩ := inner.of_ok run
    cases learn
    exact ⟨_, .popped ha, names.set ha, _, c.change ha e is sub⟩
  | remove a x =>
    obtain ⟨_, inner, rfl⟩ := ends.inner
    obtain ⟨xs, ha⟩ := names.get allowed
    obtain ⟨h₁, ns, run, e, is, sub⟩ := (c.list a xs ha).remove tidy
    obtain ⟨rfl, rfl⟩ := inner.of_ok run
    cases learn
    exact ⟨_, .removed ha, names.set ha, _, c.change ha e is sub⟩
  | takeFirst a p fits =>
    obtain ⟨_, inner, rfl⟩ := ends.inner
    obtain ⟨ha, test⟩ := allowed
    obtain ⟨xs, ha⟩ := names.get ha
    obtain ⟨h₁, ns, run, e, is, sub⟩ := (c.list a xs ha).takeFirst tidy (test xs ((c.list a xs ha).values_eq tidy))
    obtain ⟨rfl, rfl⟩ := inner.of_ok run
    cases learn
    exact ⟨_, .taken ha, names.set ha, _, c.change ha e is sub⟩
  | clear a =>
    obtain ⟨_, inner, rfl⟩ := ends.inner
    obtain ⟨xs, ha⟩ := names.get allowed
    obtain ⟨h₁, run, e, is⟩ := (c.list a xs ha).clear tidy
    obtain ⟨rfl, rfl⟩ := inner.of_ok run
    cases learn
    exact ⟨_, .cleared ha, names.set ha, _, c.change ha e is fun n hn => absurd hn List.not_mem_nil⟩
  | letGo a =>
    obtain ⟨rfl, rfl⟩ : r = .ok .done ∧ h' = h := ends.of_ok rfl
    obtain rfl : held' = held.filter (· ≠ a) := learn
    exact ⟨_, .dropped, names.drop, nodes, c.drop⟩
  | elsewhere op =>
    obtain ⟨_, inner, rfl⟩ := ends.inner
    obtain ⟨careful, spares⟩ := allowed
    obtain ⟨tidy', kept⟩ := careful.ends tidy inner
    cases learn
    refine ⟨σ, .elsewhere, names, nodes, c.kept tidy' fun b ys hb => ?_⟩
    have is := c.list b ys hb
    obtain ⟨list, other⟩ := spares b (names.mem hb)
    -- The nodes of a list that is in use are in use.
    refine ⟨kept b is.is.allocated list, fun n hn => kept n (is.node n hn).2.allocated ⟨fun collects => ?_, other _ _ is n hn⟩⟩
    have sv : h.Survives (h.Live []) := .live tidy fun r hr => absurd hr List.not_mem_nil
    exact live_nil.mp (is.survives tidy sv (live_nil.mpr (list.used collects)) n hn)

/-- Whatever is done to linked lists in a tidy heap, those that are held on to show what sequences hold after the same. -/
theorem Tidy.lists_sequences {log : List LinkedList.Event} {held : List Addr} (tidy : h.Tidy)
    (steps : Steps LinkedList.client.Step (h, []) log (h', held)) :
    ∃ σ, Steps Chains.Step (fun _ => none) log σ ∧ Names held σ ∧ ∃ nodes : Addr → List Addr,
      (∀ a xs, σ a = some xs → h'.ShowsList a (nodes a) xs) ∧
      ∀ a b, a ∈ held → b ∈ held → a ≠ b → (nodes a).Disjoint (nodes b) := by
  have none : Chaining (h, []) fun _ => none := by
    refine ⟨fun a => by simp, fun _ => [], tidy, ?_, ?_⟩
    · exact fun a xs no => nomatch no
    · exact fun a b xs ys no => nomatch no
  obtain ⟨σ, log, names, nodes, c⟩ := steps.simulate Chaining.step none
  refine ⟨σ, log, names, nodes, fun a xs ha => (c.list a xs ha).shows c.tidy, fun a b ha hb => ?_⟩
  obtain ⟨xs, ha⟩ := names.get ha
  obtain ⟨ys, hb⟩ := names.get hb
  exact c.apart a b xs ys ha hb

/-- Two lists are made and protected, one is filled with a value twice and loses it once from the middle, the other one is cleared, and
after a collection it is used again. -/
def threading : List LinkedList.Action :=
  [.create, .elsewhere (.pushRoot 8), .create, .elsewhere (.pushRoot 12), .pushBack 8 4, .pushBack 8 0, .pushBack 8 0, .pushBack 8 4,
    .pushBack 12 4, .remove 8 0, .clear 12, .elsewhere .collect, .pushBack 12 4]

theorem Tidy.lists_sequences_threading :
    let told := LinkedList.client.history (built 128 [.allocateTagged .array 3], []) threading
    Steps LinkedList.client.Step (built 128 [.allocateTagged .array 3], []) told.1 told.2 ∧
      ∃ σ, Steps Chains.Step (fun _ => none) told.1 σ ∧ σ 8 = some [4, 0, 4] ∧ σ 12 = some [4] := by
  intro told
  have tidy : (built 128 [.allocateTagged .array 3]).Tidy := tidy_built (by decide) (by decide +kernel) (by decide +kernel)
  have steps : Steps LinkedList.client.Step (built 128 [.allocateTagged .array 3], []) told.1 told.2 := by
    have still {op : Operation} {g : Heap} {held : List Addr} (quiet : ∀ b, ¬op.Changes b) (used : op.Collects → g.Rooted held) :
        ∀ b ∈ held, op.Spares g b ∧ ∀ ns xs, g.IsList b ns xs → ∀ n ∈ ns, ¬op.Changes n := fun b hb =>
      ⟨⟨fun collects => (used collects).reachable b hb, quiet b⟩, fun _ _ _ n _ => quiet n⟩
    refine Client.Permits.steps ⟨Rooted.reachable ?_, ⟨(?_ : Heap.Allocated _ 8), still (fun _ => id) False.elim⟩, Rooted.reachable ?_,
      ⟨(?_ : Heap.Allocated _ 12), still (fun _ => id) False.elim⟩, ⟨?_, ?_, Rooted.live ?_⟩, ⟨?_, ?_, Rooted.live ?_⟩,
      ⟨?_, ?_, Rooted.live ?_⟩, ⟨?_, ?_, Rooted.live ?_⟩, ⟨?_, ?_, Rooted.live ?_⟩, (?_ : 8 ∈ _), (?_ : 12 ∈ _),
      ⟨trivial, still (fun _ => id) fun _ => ?_⟩, ⟨?_, ?_, Rooted.live ?_⟩, trivial⟩
    all_goals decide +kernel
  have found : (LinkedList.values 8 told.2.1).toOption = some [4, 0, 4] ∧ (LinkedList.values 12 told.2.1).toOption = some [4] ∧
      told.2.2 = [12, 8] := by decide +kernel
  clear_value told
  obtain ⟨log, h', held⟩ := told
  obtain ⟨values, values', rfl⟩ := found
  obtain ⟨σ, related, names, nodes, shows, -⟩ := tidy.lists_sequences steps
  obtain ⟨xs, hx⟩ := names.get (show 8 ∈ [12, 8] by decide)
  obtain ⟨ys, hy⟩ := names.get (show 12 ∈ [12, 8] by decide)
  rw [(shows 8 xs hx).values] at values
  rw [(shows 12 ys hy).values] at values'
  exact ⟨steps, σ, related, hx.trans values, hy.trans values'⟩

end Heap

end FiberMachine
