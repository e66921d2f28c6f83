import FiberMachine.Proofs.Nesting
import FiberMachine.Proofs.Runs

/-!
# Safety

A step answers, or fails with an error: no assertion breaks. It never reads or writes outside a block or the memory, and it computes no
difference below zero. A program can break an assertion in three ways only, which are assumed away here: by more operands than the
host can list, by a wait group counted beyond the largest number, and by printing a value that contains itself. An execution
that has failed is over.
-/

namespace FiberMachine

open Ideal Heap

namespace Heap

/-- The argument does not take the counter of the wait group beyond the largest number. -/
def Fits (h : Heap) (g v : Addr) : Prop :=
  ∀ n delta, tag g h = .ok .waitGroup → tag v h = .ok .int → WaitGroup.counter g h = .ok n → Scalar.int v h = .ok delta →
    n.toInt + delta.toInt ≤ Int64.maxValue.toInt

/-- There is a bound method at `m`: the one called `name` of the receiver `g`. -/
structure Binds (h : Heap) (m g : Addr) (name : String) : Prop where
  isMethod : tag m h = .ok .method
  receiver : Method.receiver m h = .ok g
  called : ∃ text, Method.name m h = .ok text ∧ Text.toString text h = .ok name

end Heap

/-- The next step breaks no assertion of those that a program can break, and selects among requests of its own context. -/
structure Execution.Proper (x : Execution) : Prop where
  own : x.SelectsOwn
  /-- The operands that the instruction takes as a list fit into the memory of the host. -/
  room : ∀ c n i, x.Faces c n i → Engine.taken i * 8 < hostLimit
  /-- What is printed does not contain itself. -/
  printable : ∀ c n k newline, x.Faces c n (.print k newline) → ∀ rest vs, vs.length = k →
    Context.operands c x.machine.heap = .ok (rest ++ vs) → ∀ v ∈ vs, x.machine.heap.Printable v
  /-- No wait group is counted beyond the largest number, -/
  direct : ∀ c n, x.Faces c n (.callMethod "Add" 1) → ∀ rest g v, Context.operands c x.machine.heap = .ok (rest ++ [g, v]) →
    x.machine.heap.Fits g v
  /-- nor by a call of a bound method. -/
  bound : ∀ c n, x.Faces c n (.call 1) → ∀ rest m v, Context.operands c x.machine.heap = .ok (rest ++ [m, v]) →
    ∀ g, x.machine.heap.Binds m g "Add" → x.machine.heap.Fits g v

variable {w : World} {s : Store} {h : Heap} {t : Course} {x x' : Execution} {r y g m v : Ref} {a b n : Nat} {log : List Event}
  {code : Array Instruction} {config : Config} {journal : Journal} {history : List Entry}

/-! ### Steps -/

namespace Rep

/-- Adding to a wait group in the store is adding to it in the heap. -/
theorem fits (rep : Rep w s h) (hg : w.home g a) (hv : w.home v b) (fits : h.Fits a b) : s.Fits g v := by
  intro n queue delta ho hd
  refine fits _ _ (rep.tag_eq hg ho) (rep.tag_eq hv hd) ?_ ?_
  · obtain ⟨k, read, rfl⟩ := (Reads.counter rep hg).answer (b := (n, queue)) (by simp only [Ideal.group, Ideal.look, ho]; rfl)
    exact read
  · obtain ⟨k, read, rfl⟩ := (Reads.int rep hv).answer (b := delta.toInt64) (by
      simp only [Ideal.int, Ideal.word, run_bind, Ideal.look, hd]
      rfl)
    exact read

end Rep

/-- The next step of the course breaks no assertion either. -/
theorem Execution.Proper.sane (proper : x.Proper) (sim : Sim w t x) (typed : t.engine.store.Typed) :
    Course.Sane False (w.capacity + 1) t := by
  intro c n i turn pc instruction
  obtain ⟨a, home, faces⟩ := sim.faces turn pc instruction
  have rep := sim.machine.rep
  refine ⟨(proper.own.sane sim (w.capacity + 1) c n i turn pc instruction).owned, .inr (proper.room a n i faces), .inr ⟨?_, ?_⟩, .inr ?_⟩
  · rintro rest g v rfl operands
    obtain ⟨low, _, read, _ | ⟨hg, _ | ⟨hv, _ | _⟩⟩⟩ := rep.taken home operands
    exact rep.fits hg hv (proper.direct a n faces low _ _ read)
  · rintro rest m v g name bs rfl operands hm hname add
    obtain ⟨low, _, read, _ | ⟨home_m, _ | ⟨hv, _ | _⟩⟩⟩ := rep.taken home operands
    obtain ⟨b, receiver, hg⟩ := (Reads.receiver rep home_m).answer (b := (g, name)) (by simp only [Ideal.methodOf, Ideal.look, hm]; rfl)
    obtain ⟨d, named, hd⟩ := (Reads.methodName rep home_m).answer (b := (g, name)) (by simp only [Ideal.methodOf, Ideal.look, hm]; rfl)
    obtain ⟨text, called, rfl⟩ := (Reads.textOf rep hd).answer (b := bs) (by simp only [Ideal.bytes, Ideal.look, hname]; rfl)
    exact rep.fits hg hv (proper.bound a n faces low _ _ read b ⟨rep.tag_eq home_m hm, receiver, d, named, add ▸ called⟩)
  · rintro k newline rfl rest xs length operands y hy
    obtain ⟨low, high, read, homes⟩ := rep.taken home operands
    obtain ⟨b, hb, home_y⟩ := related_right homes hy
    have printable := proper.printable a n k newline faces low high (homes.length_eq.symm.trans length) read b hb
    exact rep.shallow typed home_y (rep.founded typed home_y printable)

namespace Heap

theorem mapM_answers {α β : Type} {f : α → HeapReader β} {as : List α} {bs : List β} (run : as.mapM f h = .ok bs) :
    ∀ a ∈ as, ∃ b, f a h = .ok b := by
  induction as generalizing bs with
  | nil => exact fun _ no => absurd no List.not_mem_nil
  | cons a as ih =>
    rw [List.mapM_cons, HeapReader.run_bind] at run
    cases first : f a h with
    | error e =>
      rw [first] at run
      cases run
    | ok b =>
      rw [first] at run
      dsimp only at run
      rw [HeapReader.run_bind] at run
      cases others : as.mapM f h with
      | error e =>
        rw [others] at run
        cases run
      | ok cs =>
        intro c hc
        rcases List.mem_cons.mp hc with rfl | hc
        · exact ⟨b, first⟩
        · exact ih others c hc

/-- What is displayed with a value can be displayed if the value can. -/
theorem Displays.answers {text : String} (displays : h.Displays b a) (run : Value.displayWithin (n + 1) a h = .ok text) :
    ∃ part, Value.displayWithin n b h = .ok part := by
  have each {xs : List Addr} (hb : b ∈ xs) (run : (do return Value.bracketed (← xs.mapM (Value.displayWithin n)) : HeapReader String) h = .ok text) :
      ∃ part, Value.displayWithin n b h = .ok part := by
    rw [HeapReader.run_bind] at run
    cases parts : xs.mapM (Value.displayWithin n) h with
    | ok bs => exact mapM_answers parts b hb
    | error e =>
      rw [parts] at run
      cases run
  rw [Value.displayWithin, HeapReader.run_bind] at run
  cases displays with
  | array isArray items item =>
    rw [isArray] at run
    dsimp only at run
    rw [HeapReader.run_bind, items] at run
    exact each item run
  | slice isSlice elements element =>
    rw [isSlice] at run
    dsimp only at run
    rw [HeapReader.run_bind, elements] at run
    exact each element run

end Heap

end FiberMachine
