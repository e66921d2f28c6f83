import FiberMachine.Proofs.Runs

/-!
# Boxes do not change

Numbers, strings, environments, slices, functions, methods, return markers and requests are shared by all that refer to them, and no
instruction of any context changes one. What is written into a block while its object is made stays there until a collection finds
that nothing refers to the object any more. Of arrays and frames the same is true of the length.
-/

namespace FiberMachine

open Ideal Heap

/-- The tags of objects that never change. -/
def Tag.isBox : Tag → Bool
  | .int | .float | .bool | .string | .bytes | .environment | .slice | .func | .method | .callRef | .channelRequest => true
  | _ => false

/-- The block at `b` is as it was: as large, of the same kind, with the same words if it is a box, and with the same length if it is
an array or a frame. -/
structure Heap.Same (h h' : Heap) (b : Addr) : Prop where
  allocated : h'.Allocated b
  tag : h'.tagAt b = h.tagAt b
  room : h'.room b = h.room b
  words : (h.tagAt b).isBox = true → ∀ i < h.room b, h'.cell b i = h.cell b i
  length : h.tagAt b = .frame ∨ h.tagAt b = .array → h'.cell b 0 = h.cell b 0

variable {w : World} {s : Store} {t : Course} {x x' : Execution} {h h' : Heap} {b : Addr} {log : List Event} {history : List Entry}
  {entry : Entry} {outcome : StepOutcome} {code : Array Instruction} {config : Config} {journal : Journal}

/-! ### What a tag fixes -/

theorem Tag.fixes_of_isBox {t : Tag} (box : t.isBox = true) (i : Nat) : t.fixes i = true := by
  cases t <;> first | rfl | cases box

theorem Tag.fixes_length {t : Tag} (counted : t = .frame ∨ t = .array) : t.fixes 0 = true := by
  rcases counted with rfl | rfl <;> rfl

theorem Heap.Stable.same (stable : h.Stable h' b) (tidy : h.Tidy) (hb : h.Allocated b) : h.Same h' b where
  allocated := stable.allocated
  tag := stable.tagAt
  room := stable.room
  words box i hi := stable.fixed i hi (Tag.fixes_of_isBox box i)
  length counted := by
    refine stable.fixed 0 ?_ (Tag.fixes_length counted)
    have laid := (tidy.each hb).1
    rw [laidOut_iff] at laid
    rcases counted with is | is <;> rw [is] at laid <;> exact Nat.lt_of_lt_of_le (Nat.succ_pos _) laid

/-! ### Looking at a world from its own heap -/

/-- The world looked at from another heap. -/
def World.since (w : World) (h : Heap) : World := { w with origin := h }

theorem Rep.since (rep : Rep w s h) : Rep (w.since h) s h where
  tidy := rep.tidy
  capacity := rep.capacity
  owner := rep.owner
  allocated := rep.allocated
  main := rep.main
  single := rep.single
  start := rep.start
  size := rep.size
  object r a ha := by
    obtain ⟨o, ho, has⟩ := rep.object r a ha
    have carries : World.Carries w h h.Allocated (w.since h) :=
      ⟨rep.tidy, .all rep.tidy, fun _ _ ha _ => ha, fun _ _ _ => rfl, fun _ _ _ _ hb _ _ _ => hb⟩
    exact ⟨o, ho, carries.has has ha (rep.home_allocated ha) fun _ _ _ hb => .refl hb⟩
  nil := rep.nil
  contexts := rep.contexts
  temporaries := rep.temporaries
  lasts := .refl fun _ hb => hb

theorem Sim.since (sim : Sim w t x) : Sim (w.since x.machine.heap) t x :=
  { sim with machine := { sim.machine with rep := sim.machine.rep.since } }

/-! ### Steps and runs -/

/-- What is in the heap before a step lasts over the step. -/
theorem Sim.lasts (sim : Sim w t x) (steady : Steady log t) (own : x.SelectsOwn) (run : Execution.step x = .ok outcome x') :
    Lasts x.machine.heap.Allocated x.machine.heap x'.machine.heap := by
  obtain ⟨w', t', done, events, stepped⟩ := sim.since.stepped steady own run
  have lasts := stepped.sim.machine.rep.lasts
  rwa [stepped.abides.origin] at lasts

/-- What was in the heap earlier in a run lasts until now. -/
theorem Run.lasts (run : Run code config journal history x) (earlier : entry ∈ history) :
    Lasts entry.before.machine.heap.Allocated entry.before.machine.heap x.machine.heap := by
  induction run with
  | start => exact absurd earlier List.not_mem_nil
  | @step history x x' outcome before own run ih =>
    obtain ⟨w, t, log, followed⟩ := before.followed
    have last := followed.sim.lasts followed.steady own run
    rcases List.mem_append.mp earlier with old | new
    · exact (ih old).trans last fun _ _ hb => hb
    · cases List.mem_singleton.mp new
      exact last

end FiberMachine
