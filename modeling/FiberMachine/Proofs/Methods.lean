import FiberMachine.Proofs.Ideal.Storing
import FiberMachine.Proofs.Ideal.Grouping
import FiberMachine.Proofs.Safety

/-!
# Calls of methods

A method of a wait group is called by name, or through a bound method, in any context. What an execution calls is read off its heap;
it is what its course calls.
-/

namespace FiberMachine

open Ideal Heap

namespace Heap

/-- The instruction, when the context `c` executes it, calls the method of the object `g` with the arguments `xs`. -/
inductive Invokes (h : Heap) (c : Addr) : Instruction → Addr → String → List Addr → Prop
  | direct {g : Addr} {method : String} {xs rest : List Addr} (operands : Context.operands c h = .ok (rest ++ g :: xs)) :
      Invokes h c (.callMethod method xs.length) g method xs
  | bound {m g : Addr} {method : String} {xs rest : List Addr} (operands : Context.operands c h = .ok (rest ++ m :: xs))
      (binds : h.Binds m g method) : Invokes h c (.call xs.length) g method xs

/-- What a method adds to the counter of a wait group. -/
inductive Asks (h : Heap) : String → List Addr → Int64 → Prop
  | add {v : Addr} {delta : Int64} (isInt : tag v h = .ok .int) (value : Scalar.int v h = .ok delta) : Asks h "Add" [v] delta
  | done : Asks h "Done" [] (-1)

/-- The instruction, which makes wait groups, has left `gs` on the operand stack: a wait group, or a slice of them. -/
inductive Leaves (h : Heap) (c : Addr) : Instruction → List Addr → Prop
  | single {g : Addr} {rest : List Addr} (operands : Context.operands c h = .ok (rest ++ [g])) : Leaves h c (.loadDefault .waitGroup) [g]
  | slice {r array : Addr} {gs rest : List Addr} {hasCap : Bool} (operands : Context.operands c h = .ok (rest ++ [r]))
      (behind : Slice.array r h = .ok array) (items : Sequence.toList array h = .ok gs) : Leaves h c (.makeSlice .waitGroup hasCap) gs

end Heap

/-- The step has executed the instruction `i` in the context `c`. -/
def Entry.Executes (entry : Entry) (c : Addr) (i : Instruction) : Prop :=
  ∃ n, entry.outcome = .executed c n ∧ entry.before.code[n]? = some i

/-- In the step the context `c` has called the method of the object `g`. -/
def Entry.CallsMethod (entry : Entry) (c g : Addr) (method : String) (xs : List Addr) : Prop :=
  ∃ i, entry.Executes c i ∧ entry.before.machine.heap.Invokes c i g method xs

/-- The step, which ends in the state `x`, has made the wait group `g`. -/
def Entry.Makes (entry : Entry) (x : Execution) (g : Addr) : Prop :=
  ∃ c i gs, entry.Executes c i ∧ x.machine.heap.Leaves c i gs ∧ g ∈ gs

variable {w : World} {s : Store} {h : Heap} {c g m v : Ref} {a b : Addr} {i : Instruction} {method : String} {xs gs : List Ref}
  {as bs : List Addr} {delta : Int64} {entry : Entry}

namespace Heap

theorem Leaves.unique (left : h.Leaves a i as) (right : h.Leaves a i bs) : as = bs := by
  have top {x y : Addr} {low low' : List Addr} (k : Context.operands a h = .ok (low ++ [x])) (l : Context.operands a h = .ok (low' ++ [y])) :
      x = y := by
    rw [k] at l
    simpa using (List.append_inj' (Except.ok.inj l) rfl).2
  cases left with
  | single k =>
    cases right with
    | single l => rw [top k l]
  | slice k behind items =>
    cases right with
    | slice l behind' items' =>
      cases top k l
      cases behind.symm.trans behind'
      exact Except.ok.inj (items.symm.trans items')

end Heap

theorem Heap.Leaves.makesGroups (leaves : h.Leaves a i as) : i.makesGroups = true := by cases leaves <;> rfl

theorem Entry.Executes.unique {j : Instruction} (left : entry.Executes a i) (right : entry.Executes b j) : a = b ∧ i = j := by
  obtain ⟨n, outcome, code⟩ := left
  obtain ⟨n', outcome', code'⟩ := right
  cases outcome.symm.trans outcome'
  cases code.symm.trans code'
  exact ⟨rfl, rfl⟩

namespace Rep

/-! ### From the store to the heap -/

theorem binds (rep : Rep w s h) (hm : w.home m a) (binds : s.Binds m g method) : ∃ b, h.Binds a b method ∧ w.home g b := by
  obtain ⟨name, bs, ho, text, same⟩ := binds
  obtain ⟨b, receiver, hg⟩ := (Reads.receiver rep hm).answer (b := (g, name)) (by simp only [Ideal.methodOf, Ideal.look, ho]; rfl)
  obtain ⟨d, named, hd⟩ := (Reads.methodName rep hm).answer (b := (g, name)) (by simp only [Ideal.methodOf, Ideal.look, ho]; rfl)
  obtain ⟨t, called, rfl⟩ := (Reads.textOf rep hd).answer (b := bs) (by simp only [Ideal.bytes, Ideal.look, text]; rfl)
  exact ⟨b, ⟨rep.tag_eq hm ho, receiver, d, named, same ▸ called⟩, hg⟩

theorem invokes (rep : Rep w s h) (hc : w.home c a) (invokes : s.Invokes c i g method xs) :
    ∃ b as, h.Invokes a i b method as ∧ w.home g b ∧ List.Forall₂ w.home xs as := by
  cases invokes with
  | direct operands =>
    obtain ⟨low, _, read, _ | ⟨hg, homes⟩⟩ := rep.taken hc operands
    exact ⟨_, _, homes.length_eq ▸ .direct read, hg, homes⟩
  | bound operands binds =>
    obtain ⟨low, _, read, _ | ⟨hm, homes⟩⟩ := rep.taken hc operands
    obtain ⟨b, bound, hg⟩ := rep.binds hm binds
    exact ⟨b, _, homes.length_eq ▸ .bound read bound, hg, homes⟩

theorem asks (rep : Rep w s h) (homes : List.Forall₂ w.home xs as) (asks : s.Asks method xs delta) : h.Asks method as delta := by
  cases asks with
  | add hv =>
    obtain _ | ⟨home, _ | _⟩ := homes
    obtain ⟨k, read, rfl⟩ := (Reads.int rep home).answer (b := _) (by
      simp only [Ideal.int, Ideal.word, run_bind, Ideal.look, hv]
      rfl)
    exact .add (rep.tag_eq home hv) read
  | done =>
    cases homes
    exact .done

theorem leaves (rep : Rep w s h) (typed : s.Typed) (hc : w.home c a) (leaves : s.Leaves c i gs) :
    ∃ as, h.Leaves a i as ∧ List.Forall₂ w.home gs as := by
  cases leaves with
  | single operands =>
    obtain ⟨low, _, read, _ | ⟨hg, _ | _⟩⟩ := rep.taken hc operands
    exact ⟨_, .single read, .cons hg .nil⟩
  | slice operands ho items =>
    obtain ⟨low, _, read, _ | ⟨hr, _ | _⟩⟩ := rep.taken hc operands
    obtain ⟨_, _, _, ys, window⟩ := typed.window ⟨_, ho, rfl⟩
    cases ho.symm.trans window.slice
    obtain ⟨b, behind, home⟩ := (Reads.sliceArray rep hr).answer window.sliceOf
    obtain ⟨as, found, homes⟩ := (Reads.items rep home).answer (b := gs) (by
      simp only [Ideal.items, run_bind, Ideal.look, items]
      rfl)
    exact ⟨as, .slice read behind found, homes⟩

/-! ### From the heap to the store -/

theorem operand_at {below above : List Addr} (rep : Rep w s h) (hc : w.home c a) (isContext : s.IsTag c .context) (typed : s.Typed)
    (read : Context.operands a h = .ok (below ++ b :: above)) :
    ∃ low x high, s.Operands c (low ++ x :: high) ∧ w.home x b ∧ List.Forall₂ w.home high above := by
  obtain ⟨f, hf⟩ := typed.canonical isContext
  obtain ⟨low, x, high, same, _, hx, homes⟩ := rep.operands_split hc hf read
  exact ⟨low, x, high, ⟨f, hf, same⟩, hx, homes⟩

theorem bound_at (rep : Rep w s h) (typed : s.Typed) (hm : w.home m a) (binds : h.Binds a b method) : ∃ g, s.Binds m g method ∧ w.home g b := by
  obtain ⟨g, name, ho⟩ := typed.canonical (rep.isTag_of_tag hm binds.isMethod)
  obtain ⟨bs, text⟩ := typed.canonical (typed.good _ _ ho).2
  have names : s.Binds m g (Utf8.decodeLossy bs) := ⟨name, bs, ho, text, rfl⟩
  obtain ⟨b', bound, hg⟩ := rep.binds hm names
  cases binds.receiver.symm.trans bound.receiver
  obtain ⟨d, named, called⟩ := binds.called
  obtain ⟨d', named', called'⟩ := bound.called
  cases named.symm.trans named'
  cases called.symm.trans called'
  exact ⟨g, names, hg⟩

theorem invoked (rep : Rep w s h) (typed : s.Typed) (hc : w.home c a) (isContext : s.IsTag c .context) (invokes : h.Invokes a i b method as) :
    ∃ g xs, s.Invokes c i g method xs ∧ w.home g b ∧ List.Forall₂ w.home xs as := by
  cases invokes with
  | direct read =>
    obtain ⟨low, g, xs, operands, hg, homes⟩ := rep.operand_at hc isContext typed read
    exact ⟨g, xs, homes.length_eq ▸ .direct operands, hg, homes⟩
  | bound read binds =>
    obtain ⟨low, m, xs, operands, hm, homes⟩ := rep.operand_at hc isContext typed read
    obtain ⟨g, bound, hg⟩ := rep.bound_at typed hm binds
    exact ⟨g, xs, homes.length_eq ▸ .bound operands bound, hg, homes⟩

theorem asked (rep : Rep w s h) (typed : s.Typed) (homes : List.Forall₂ w.home xs as) (asks : h.Asks method as delta) : s.Asks method xs delta := by
  cases asks with
  | add isInt value =>
    cases homes with
    | cons home rest =>
      cases rest
      obtain ⟨k, ho⟩ := typed.canonical (rep.isTag_of_tag home isInt)
      obtain ⟨delta', read, rfl⟩ := (Reads.int rep home).answer (b := k.toInt64) (by
        simp only [Ideal.int, Ideal.word, run_bind, Ideal.look, ho]
        rfl)
      cases value.symm.trans read
      exact .add ho
  | done =>
    cases homes
    exact .done

end Rep

end FiberMachine
