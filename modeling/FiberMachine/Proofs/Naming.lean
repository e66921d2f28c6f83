import FiberMachine.Execution.Snapshot
import FiberMachine.Proofs.Calls
import FiberMachine.Proofs.Framing

/-!
# Names of variables

A snapshot takes the names of the variables in a frame from the instruction that is noted as the origin of the address. For every frame
in scope that is the instruction from which its names have come last: the one that has opened it, or the one that has built the closure
for whose call it has been opened. It has as many names as the frame has slots.
-/

namespace FiberMachine

open Ideal

/-- Where the names of a frame come from: the instruction that opens it, or the closure that is called. -/
inductive Namer where
  | instruction (n : Nat)
  | closure (g : Addr)

/-- Executed from `n` by the context at `c`, the instruction leads from `x` to `x'` and opens the frame at `f`. -/
inductive Instruction.Opens (c n : Nat) (x x' : Execution) (f : Addr) : Instruction → Namer → Prop
  | scope {names : List String} (innermost : x'.machine.heap.Innermost c f) : Opens c n x x' f (.enterScope names) (.instruction n)
  | offer {target : Nat} {name : String} (offers : x'.machine.heap.Offers c f) : Opens c n x x' f (.selectRecv target name) (.instruction n)
  | call {argc g : Nat} (applies : x.machine.heap.Applies c g argc) (innermost : x'.machine.heap.Innermost c f) :
      Opens c n x x' f (.call argc) (.closure g)
  | go {argc g d : Nat} {ds : List Addr} (applies : x.machine.heap.Applies c g argc) (registered : x'.machine.heap.contexts = ds ++ [d])
      (innermost : x'.machine.heap.Innermost d f) : Opens c n x x' f (.go argc) (.closure g)

/-- Executed by the context at `c`, the instruction leads to `x'` and builds the closure at `g`. -/
inductive Instruction.Builds (c : Nat) (x' : Execution) (g : Addr) : Instruction → Prop
  | func {target : Nat} {params : List String} (tops : x'.machine.heap.Tops c g) : Builds c x' g (.loadFunc target params)

/-- The step of the entry has executed the instruction `i` from `n` in the context at `c`. -/
def Entry.Does (entry : Entry) (c n : Nat) (i : Instruction) : Prop := entry.outcome = .executed c n ∧ entry.before.code[n]? = some i

/-- The step of the entry, which has led to `x`, has opened the frame at `f`. -/
def Entry.Opens (entry : Entry) (x : Execution) (f : Addr) (namer : Namer) : Prop :=
  ∃ c n i, entry.Does c n i ∧ i.Opens c n entry.before x f namer

/-- The step of the entry, which has led to `x`, has built the closure at `g` from the instruction at `n`. -/
def Entry.Builds (entry : Entry) (x : Execution) (g n : Nat) : Prop := ∃ c i, entry.Does c n i ∧ i.Builds c x g

/-- The closure at `g` has been built last from the instruction at `n`. -/
inductive Built : List Entry → Execution → Addr → Nat → Prop
  | builds {history : List Entry} {entry : Entry} {x : Execution} {g n : Nat} (builds : entry.Builds x g n) : Built (history ++ [entry]) x g n
  | stays {history : List Entry} {entry : Entry} {x : Execution} {g n : Nat} (before : Built history entry.before g n)
      (kept : ∀ k, ¬entry.Builds x g k) : Built (history ++ [entry]) x g n

/-- The frame at `f` has got its names last from the instruction at `n`. -/
inductive Named : List Entry → Execution → Addr → Nat → Prop
  | opens {history : List Entry} {entry : Entry} {x : Execution} {f n : Nat} (opens : entry.Opens x f (.instruction n)) :
      Named (history ++ [entry]) x f n
  | calls {history : List Entry} {entry : Entry} {x : Execution} {f g n : Nat} (opens : entry.Opens x f (.closure g))
      (built : Built history entry.before g n) : Named (history ++ [entry]) x f n
  | stays {history : List Entry} {entry : Entry} {x : Execution} {f n : Nat} (before : Named history entry.before f n)
      (kept : ∀ namer, ¬entry.Opens x f namer) : Named (history ++ [entry]) x f n

variable {w w' : World} {t t' : Course} {x x' : Execution} {entry : Entry} {history : List Entry} {log events : List Event} {c : Ref}
  {a f g n : Nat} {namer namer' : Namer} {i : Instruction} {outcome : StepOutcome} {done : StepOutcome} {code : Array Instruction}
  {config : Config} {journal : Journal}

/-! ### One step makes one frame or closure -/

theorem Entry.Does.unique {d k : Nat} {j : Instruction} (first : entry.Does c n i) (second : entry.Does d k j) : c = d ∧ n = k ∧ i = j := by
  obtain ⟨done, instruction⟩ := first
  obtain ⟨done', instruction'⟩ := second
  cases done.symm.trans done'
  exact ⟨rfl, rfl, Option.some.inj (instruction.symm.trans instruction')⟩

theorem Entry.Opens.unique {f' : Addr} (first : entry.Opens x f namer) (second : entry.Opens x f' namer') : f = f' := by
  obtain ⟨c, n, i, does, opens⟩ := first
  obtain ⟨_, _, _, does', opens'⟩ := second
  obtain ⟨rfl, rfl, rfl⟩ := does.unique does'
  cases opens with
  | scope innermost =>
    cases opens' with
    | scope innermost' => exact innermost.unique innermost'
  | offer offers =>
    cases opens' with
    | offer offers' => exact offers.unique offers'
  | call _ innermost =>
    cases opens' with
    | call _ innermost' => exact innermost.unique innermost'
  | go _ registered innermost =>
    cases opens' with
    | go _ registered' innermost' =>
      cases (List.append_inj' (registered.symm.trans registered') rfl).2
      exact innermost.unique innermost'

theorem Entry.Builds.unique {g' k : Nat} (first : entry.Builds x g n) (second : entry.Builds x g' k) : g = g' := by
  obtain ⟨c, i, does, builds⟩ := first
  obtain ⟨_, _, does', builds'⟩ := second
  obtain ⟨rfl, rfl, rfl⟩ := does.unique does'
  cases builds with
  | func tops =>
    cases builds' with
    | func tops' => exact tops.unique tops'

/-- Only an instruction that makes a frame opens one. -/
theorem Entry.Does.opens_nothing (does : entry.Does c n i) (plain : i.makesFrame = false) : ¬entry.Opens x f namer := by
  rintro ⟨_, _, _, does', opens⟩
  obtain ⟨rfl, rfl, rfl⟩ := does.unique does'
  cases opens <;> cases plain

/-- Only an instruction that loads a function builds a closure. -/
theorem Entry.Does.builds_nothing {k : Nat} (does : entry.Does c n i) (other : ∀ target params, i ≠ .loadFunc target params) :
    ¬entry.Builds x g k := by
  rintro ⟨_, _, does', builds⟩
  obtain ⟨rfl, rfl, rfl⟩ := does.unique does'
  cases builds
  exact other _ _ rfl

/-! ### What is known of frames and closures -/

/-- Closures and frames are what the instructions say from which they have been made, and it is noted where the frames come from. -/
structure Attributed (code : Array Instruction) (w : World) (s : Store) (history : List Entry) (x : Execution) : Prop where
  closures : ∀ r g k, w.home r g → s.objects[r]? = some (.func k) →
    Built history x g k.declaration ∧ ∃ target params, code[k.declaration]? = some (.loadFunc target params) ∧ k.arity = params.length
  frames : ∀ r f slots, w.home r f → s.Sized r .frame slots →
    ∃ n i, Named history x f n ∧ x.machine.origins.lookup f = some n ∧ code[n]? = some i ∧ i.variableNames.length = slots

namespace Attributed

variable {r : Ref} {k : Code} {slots : Nat} (attributed : Attributed code w t.engine.store history x)
include attributed

/-- A closure that was there before is what it was. -/
theorem old_closure (abides : Abides w t.engine.store w' t'.engine.store) (grows : t.engine.store.Grows t'.engine.store) (home : w'.home r g)
    (hk : t'.engine.store.objects[r]? = some (.func k)) (old : r < t.engine.store.objects.length)
    (kept : ∀ n, ¬(⟨x, outcome⟩ : Entry).Builds x' g n) : Built (history ++ [⟨x, outcome⟩]) x' g k.declaration ∧
      ∃ target params, code[k.declaration]? = some (.loadFunc target params) ∧ k.arity = params.length := by
  obtain ⟨built, declared⟩ := attributed.closures r g k (abides.old r g home old) (grows.func (Store.known_iff.mpr old) hk)
  exact ⟨.stays built kept, declared⟩

/-- A frame that was there before is what it was. -/
theorem old_frame (abides : Abides w t.engine.store w' t'.engine.store) (grows : t.engine.store.Grows t'.engine.store) (home : w'.home r f)
    (frame : t'.engine.store.Sized r .frame slots) (old : r < t.engine.store.objects.length)
    (kept : ∀ namer, ¬(⟨x, outcome⟩ : Entry).Opens x' f namer) (lookup : x'.machine.origins.lookup f = x.machine.origins.lookup f) :
    ∃ n i, Named (history ++ [⟨x, outcome⟩]) x' f n ∧ x'.machine.origins.lookup f = some n ∧ code[n]? = some i ∧
      i.variableNames.length = slots := by
  obtain ⟨n, i, named, noted, declared⟩ := attributed.frames r f slots (abides.old r f home old) (frame.shrink grows (Store.known_iff.mpr old))
  exact ⟨n, i, .stays named kept, lookup.trans noted, declared⟩

/-- A step that opens no frame and builds no closure. -/
theorem rests (abides : Abides w t.engine.store w' t'.engine.store) (grows : t.engine.store.Grows t'.engine.store)
    (old : ∀ r, t'.engine.store.IsNamed r → r < t.engine.store.objects.length) (builds : ∀ g n, ¬(⟨x, outcome⟩ : Entry).Builds x' g n)
    (opens : ∀ f namer, ¬(⟨x, outcome⟩ : Entry).Opens x' f namer)
    (lookup : ∀ r f slots, w'.home r f → t'.engine.store.Sized r .frame slots → x'.machine.origins.lookup f = x.machine.origins.lookup f) :
    Attributed code w' t'.engine.store (history ++ [⟨x, outcome⟩]) x' where
  closures r g _ home hk := attributed.old_closure abides grows home hk (old r (Store.isNamed_func hk)) (builds g)
  frames r f slots home frame := attributed.old_frame abides grows home frame (old r frame.isNamed) (opens f) (lookup r f slots home frame)

variable {f : Fiber} {m₁ m : Machine} {e : Engine} {b d : Nat}

/-- A step that opens a frame. -/
theorem opens (en : Enacts w t x w' t' x' c a f i m₁ m e) (grows : t.engine.store.Grows t'.engine.store)
    (opened : Opened t x w' t' m r b slots d) (does : (⟨x, outcome⟩ : Entry).Does a n i) (other : ∀ target params, i ≠ .loadFunc target params)
    (opens : (⟨x, outcome⟩ : Entry).Opens x' b namer) (named : Named (history ++ [⟨x, outcome⟩]) x' b d) {j : Instruction}
    (declared : code[d]? = some j) (length : j.variableNames.length = slots) :
    Attributed code w' t'.engine.store (history ++ [⟨x, outcome⟩]) x' where
  closures q g _ home hk := by
    refine attributed.old_closure en.abides grows home hk ?_ fun _ => does.builds_nothing other
    rcases opened.opens.only q (Store.isNamed_func hk) with old | rfl
    · exact old.lt
    · exact nomatch opened.opens.frame.isTag.unique ⟨_, hk, rfl⟩
  frames q g slots' home frame := by
    rcases opened.opens.only q frame.isNamed with old | rfl
    · have apart : g ≠ b := by
        rintro rfl
        cases en.sim.machine.rep.unique home opened.home
        exact Nat.lt_irrefl _ (Nat.lt_of_lt_of_le old.lt opened.opens.new)
      refine attributed.old_frame en.abides grows home frame old.lt (fun _ opens' => apart (opens'.unique opens)) ?_
      rw [en.lookup home frame, opened.origins, List.lookup_cons, beq_false_of_ne apart]
    · cases en.sim.machine.rep.single _ _ _ home opened.home
      refine ⟨d, j, named, ?_, declared, length.trans (opened.opens.frame.unique frame)⟩
      rw [en.lookup home frame, opened.origins, List.lookup_cons, beq_self_eq_true]

/-- A step that builds a closure. -/
theorem builds {target : Nat} {params : List String} (en : Enacts w t x w' t' x' c a f (.loadFunc target params) m₁ m e)
    (grows : t.engine.store.Grows t'.engine.store) (sim : Sim w t x) (does : (⟨x, outcome⟩ : Entry).Does a f.pc (.loadFunc target params))
    (declared : code[f.pc]? = some (.loadFunc target params)) (short : params.length < wordLimit) :
    Attributed code w' t'.engine.store (history ++ [⟨x, outcome⟩]) x' := by
  obtain ⟨r, b, k, brings, hb, tops, hk, declaration, arity⟩ := en.build sim rfl
  have builds : (⟨x, outcome⟩ : Entry).Builds x' b f.pc := ⟨a, _, does, .func tops⟩
  constructor
  · intro q g _ home hk'
    rcases brings.only q (Store.isNamed_func hk') with old | rfl
    · refine attributed.old_closure en.abides grows home hk' old.lt fun n builds' => ?_
      cases builds'.unique builds
      cases en.sim.machine.rep.unique home hb
      exact Nat.lt_irrefl _ (Nat.lt_of_lt_of_le old.lt brings.new)
    · cases en.sim.machine.rep.single _ _ _ home hb
      cases hk.symm.trans hk'
      rw [declaration, arity, en.wrap_pc sim, wrap, Nat.mod_eq_of_lt short]
      exact ⟨.builds builds, target, params, declared, rfl⟩
  · intro q g slots home frame
    refine attributed.old_frame en.abides grows home frame ?_ (fun _ => does.opens_nothing rfl)
      ((en.lookup home frame).trans (congrArg _ (en.unnoted rfl)))
    rcases brings.only q frame.isNamed with old | rfl
    · exact old.lt
    · exact nomatch frame.isTag.unique ⟨_, hk, rfl⟩

/-- What is known of frames and closures is known after a step. -/
theorem step (short : ∀ i ∈ code, i.variableNames.length < wordLimit) (program : t.code = code) (sim : Sim w t x) (steady : Steady log t)
    (own : x.SelectsOwn) (stepped : Stepped w t x log outcome w' t' x' done events) :
    Attributed code w' t'.engine.store (history ++ [⟨x, outcome⟩]) x' := by
  cases outcome with
  | finished =>
    have store : t'.engine.store = t.engine.store := by
      have same := stepped.same
      rcases Course.step_executed steady (own.sane sim (w.capacity + 1)) stepped.run with ⟨_, _, rests⟩ | ⟨_, _, _, _, _, rfl, _⟩
      · exact rests.store
      · cases same
    have nothing {c n : Nat} {i : Instruction} : ¬(⟨x, .finished⟩ : Entry).Does c n i := fun does => nomatch does.1
    refine attributed.rests stepped.abides (store ▸ .refl) (fun r named => store ▸ named.lt) (fun g n ⟨_, _, does, _⟩ => nothing does)
      (fun f namer ⟨_, _, _, does, _⟩ => nothing does) fun _ f _ _ _ => congrArg _ (Execution.step_rested stepped.ran).origins
  | executed a n =>
    obtain ⟨c, f, i, m₁, m, e, rfl, en⟩ := stepped.enacts sim steady own
    obtain ⟨_, _, executed⟩ := en.executed
    have grows := executed.grows
    have declared : code[f.pc]? = some i := program ▸ executed.instruction
    have does : (⟨x, .executed a f.pc⟩ : Entry).Does a f.pc i := ⟨rfl, en.faces.instruction⟩
    have others (plain : i.makesNamed = false) (quiet : i.makesFrame = false) (other : ∀ target params, i ≠ .loadFunc target params) :
        Attributed code w' t'.engine.store (history ++ [⟨x, .executed a f.pc⟩]) x' :=
      attributed.rests en.abides grows (fun _ => en.old plain) (fun _ _ => does.builds_nothing other) (fun _ _ => does.opens_nothing quiet)
        fun _ _ _ home frame => (en.lookup home frame).trans (congrArg _ (en.unnoted quiet))
    cases i with
    | enterScope names =>
      obtain ⟨r, b, opened, innermost⟩ := en.scope sim rfl
      have opens : (⟨x, .executed a f.pc⟩ : Entry).Opens x' b (.instruction f.pc) := ⟨_, _, _, does, .scope innermost⟩
      exact attributed.opens en grows opened does nofun opens (.opens opens) declared rfl
    | selectRecv target name =>
      obtain ⟨r, b, opened, offers⟩ := en.offer sim rfl
      have opens : (⟨x, .executed a f.pc⟩ : Entry).Opens x' b (.instruction f.pc) := ⟨_, _, _, does, .offer offers⟩
      exact attributed.opens en grows opened does nofun opens (.opens opens) declared rfl
    | call argc =>
      rcases en.call sim rfl with ⟨r, b, q, g, k, opened, innermost, home, hk, arity, applies⟩ | ⟨unnoted, old, method⟩
      · have opens : (⟨x, .executed a f.pc⟩ : Entry).Opens x' b (.closure g) := ⟨_, _, _, does, .call applies innermost⟩
        obtain ⟨built, target, params, declared, same⟩ := attributed.closures q g k home hk
        exact attributed.opens en grows opened does nofun opens (.calls opens built) declared (same.symm.trans arity)
      · refine attributed.rests en.abides grows old (fun _ _ => does.builds_nothing nofun) (fun f namer opens => ?_)
          fun _ _ _ home frame => (en.lookup home frame).trans (congrArg _ unnoted)
        obtain ⟨_, _, _, does', opens⟩ := opens
        obtain ⟨rfl, rfl, rfl⟩ := does.unique does'
        cases opens with
        | call applies _ => exact method _ applies
    | go argc =>
      obtain ⟨r, b, q, g, k, opened, ⟨d, ds, registered, innermost⟩, home, hk, arity, applies⟩ := en.go sim rfl
      have opens : (⟨x, .executed a f.pc⟩ : Entry).Opens x' b (.closure g) := ⟨_, _, _, does, .go applies registered innermost⟩
      obtain ⟨built, target, params, declared, same⟩ := attributed.closures q g k home hk
      exact attributed.opens en grows opened does nofun opens (.calls opens built) declared (same.symm.trans arity)
    | loadFunc target params =>
      exact attributed.builds en grows sim does declared (short _ (Array.mem_of_getElem? declared))
    | _ => exact others rfl rfl nofun

end Attributed

/-- There are neither frames nor closures at first. -/
theorem initial_unnamed {r : Ref} : ¬Course.initial.IsNamed r := by
  rintro ⟨o, ho, named⟩
  obtain ⟨_, rfl⟩ | ⟨_, rfl⟩ | ⟨_, rfl⟩ := Course.initial_cases ho <;> cases named

/-- What is known of frames and closures in a run. -/
theorem Run.attributed (run : Run code config journal history x) (short : ∀ i ∈ code, i.variableNames.length < wordLimit) :
    ∃ w t log, Followed w t x log history ∧ t.code = code ∧ Attributed code w t.engine.store history x := by
  refine run.traced (P := fun w t _ history x => t.code = code ∧ Attributed code w t.engine.store history x) (fun w x _ _ => ⟨rfl, ?_, ?_⟩)
    fun followed ⟨program, attributed⟩ own stepped => ⟨(stepped.same_code followed.sim followed.steady own).trans program,
      attributed.step short program followed.sim followed.steady own stepped⟩
  · rintro r g k - hk
    exact (initial_unnamed (Store.isNamed_func hk)).elim
  · rintro r f slots - frame
    exact (initial_unnamed frame.isNamed).elim

end FiberMachine
