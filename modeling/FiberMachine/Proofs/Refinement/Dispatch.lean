import FiberMachine.Proofs.Refinement.Exchange
import FiberMachine.Proofs.Refinement.Expressions

/-!
# Instructions

Every instruction follows the engine and notes the same, and so does its execution, which ends the protection of the
operands.
-/

/-! ## Arrays, slices and strings

The instructions that make, index, measure, cut and extend collections follow the engine.
-/

namespace FiberMachine

open Ideal

variable {w w' : World} {e : Engine} {m : Machine} {s : Store} {h : Heap} {r v c : Ref} {a b n : Nat} {xs : List Ref}
  {as : List Nat}

theorem Reads.channelLength (rep : Rep w s h) (ha : w.home r a) :
    Reads s h (Channel.length a) (Ideal.duct r) fun d k => d.buffer.length = k := by
  refine .duct rep ha fun d has => ?_
  obtain ⟨_, as, is, _, _, homes, start⟩ := has.buffer
  refine ⟨as.length, ?_, homes.length_eq⟩
  simp only [Channel.length, HeapReader.run_bind, rep.bufferAt has, start ▸ is.length_eq rep.tidy]

theorem Reads.channelCapacity (rep : Rep w s h) (ha : w.home r a) :
    Reads s h (Channel.capacity a) (Ideal.duct r) fun d k => d.capacity = k :=
  .duct rep ha fun _ has => ⟨_, rep.tidy.sound.readNat_eq has.is (by decide), has.capacity.symm⟩

theorem Tracks.substring (rep : Rep w s h) (ha : w.home r a) (low high : Option Int) :
    Tracks w s h (Machine.substring a low high) (Engine.substring r low high) fun w' x y => w'.home x y := by
  refine .read_bind (.bytes rep ha) ?_
  rintro bs _ rfl
  exact .read_bind (.checkBounds _ _ _) fun _ _ _ => Drives.makes (.newText rep _)

namespace Drives

theorem execMakeArray (d : Describes w e m) (hc : Held w e.store c n) (k : Nat) :
    Drives w e m (Machine.execMakeArray n k) (Engine.execMakeArray c k) fun _ _ _ => True := by
  refine popMany k d hc fun xs e₁ as m₁ w₁ d₁ keeps₁ held => ?_
  refine copies d₁ held fun ys e₂ bs m₂ w₂ d₂ keeps₂ held₂ => ?_
  exact load d₂ ((hc.keep keeps₁).keep keeps₂) (makes (.arrayOf d₂.rep (held₂.imp fun _ _ held => held.home)))

theorem fillZero (d : Describes w e m) (ha : Held w e.store r a) (elem : ValueKind) (i k : Nat) :
    Drives w e m (Machine.execMakeSlice.fillZero a elem i k) (Engine.fillZero r elem i k) fun _ _ _ => True := by
  induction k generalizing w e m i with
  | zero => exact answer d trivial
  | succ k ih =>
    refine heap_bind d (.zeroValue d.rep elem) fun v e₁ b m₁ w₁ d₁ keeps₁ hv => ?_
    have ha₁ := ha.keep keeps₁
    exact heap_bind d₁ (.setSlot d₁.rep ha₁.home hv) fun _ e₂ _ m₂ w₂ d₂ keeps₂ _ => ih d₂ (ha₁.keep keeps₂) (i + 1)

theorem execMakeSlice (d : Describes w e m) (hc : Held w e.store c n) (elem : ValueKind) (hasCap : Bool) :
    Drives w e m (Machine.execMakeSlice n elem hasCap) (Engine.execMakeSlice c elem hasCap) fun _ _ _ => True := by
  refine popOption d hc fun capacity? e₁ m₁ w₁ d₁ keeps₁ => ?_
  refine popInt d₁ (hc.keep keeps₁) fun length e₂ m₂ w₂ d₂ keeps₂ => ?_
  have hc₂ := (hc.keep keeps₁).keep keeps₂
  by_cases negative : length < 0
  · simp only [negative, if_true]
    exact aborts_bind d₂ rfl
  simp only [negative, if_false]
  by_cases short : capacity?.getD length < length
  · simp only [short, if_true]
    exact aborts_bind d₂ rfl
  simp only [short, if_false]
  refine protecting d₂ (makes (.newSequence d₂.rep rfl _)) fun array e₃ x m₃ w₃ d₃ keeps₃ hx => ?_
  refine (fillZero d₃ hx elem 0 _).bind fun _ e₄ _ m₄ w₄ d₄ keeps₄ _ => ?_
  exact load d₄ ((hc₂.keep keeps₃).keep keeps₄) (makes (.window d₄.rep (hx.keep keeps₄).home))

theorem execIndex (d : Describes w e m) (hc : Held w e.store c n) :
    Drives w e m (Machine.execIndex n) (Engine.execIndex c) fun _ _ _ => True := by
  refine popInt d hc fun index e₁ m₁ w₁ d₁ keeps₁ => ?_
  refine pop d₁ (hc.keep keeps₁) fun r e₂ a m₂ w₂ d₂ keeps₂ hr => ?_
  have hc₂ := (hc.keep keeps₁).keep keeps₂
  refine read_bind d₂ (.tag d₂.rep hr.home) ?_
  rintro t _ rfl
  cases t
  case array => exact read_bind d₂ (.getItem d₂.rep hr.home _) fun v b hv => push d₂ hc₂.home hv
  case slice => exact read_bind d₂ (.sliceGet d₂.rep hr.home _) fun v b hv => push d₂ hc₂.home hv
  case string =>
    refine read_bind d₂ (.byteAt d₂.rep hr.home _) ?_
    rintro byte _ rfl
    exact load d₂ hc₂ (makes (.newInt d₂.rep _))
  all_goals exact aborts d₂ rfl

theorem storeAt (d : Describes w e m) (hr : w.home r a) (index : Int) (hv : w.home v b) :
    Drives w e m (Machine.storeAt a index b) (Engine.storeAt r index v) fun _ _ _ => True := by
  refine read_bind d (.tag d.rep hr) ?_
  rintro t _ rfl
  cases t
  case array =>
    have stored := heap_bind (k := fun _ => pure a) (l := fun _ => pure ()) (R := fun _ _ _ => True) d
      (.setItem d.rep hr index hv) fun _ e₁ _ m₁ w₁ d₁ _ _ => answer d₁ trivial
    exact stored.congr rfl (by rw [bind_pure_unit])
  case slice =>
    refine heap_bind d (.sliceSet d.rep hr index hv) ?_
    rintro _ e₁ _ m₁ _ d₁ keeps rfl
    have array := read_bind (k := pure) (l := fun _ => pure ()) (R := fun _ _ _ => True) d₁ (.sliceArray d₁.rep hr)
      fun _ _ _ => answer d₁ trivial
    exact array.congr (by rw [bind_pure]) rfl
  all_goals exact aborts d rfl

theorem execStoreIndex (d : Describes w e m) (hc : Held w e.store c n) :
    Drives w e m (Machine.execStoreIndex n) (Engine.execStoreIndex c) fun _ _ _ => True := by
  refine pop d hc fun v e₁ b m₁ w₁ d₁ keeps₁ hv => ?_
  have hc₁ := hc.keep keeps₁
  refine popInt d₁ hc₁ fun index e₂ m₂ w₂ d₂ keeps₂ => ?_
  have hc₂ := hc₁.keep keeps₂
  refine pop d₂ hc₂ fun r e₃ a m₃ w₃ d₃ keeps₃ hr => ?_
  refine heap_bind d₃ (.copy d₃.rep ((hv.keep keeps₂).keep keeps₃).home) fun x e₄ y m₄ w₄ d₄ keeps₄ hx => ?_
  have stored := (storeAt d₄ (hr.keep keeps₄).home index.toInt hx).bind (k := fun written => Machine.markDirty written y)
    (l := fun _ => pure ()) (R := fun _ _ _ => True) fun _ e₅ written m₅ w₅ d₅ _ _ => ?_
  · exact stored.congr rfl (by rw [bind_pure_unit])
  · exact aside (f := fun m => { m with dirty := m.dirty ++ [written, y] }) (k := pure) (answer (d₅.dirty _) trivial)

theorem count (d : Describes w e m) (hc : Held w e.store c n) {x y : Nat} (same : x = y) :
    Drives w e m (Machine.load n (Scalar.newInt (Int64.ofNat y))) (Engine.load c (newInt (Int64.ofNat x)))
      fun _ _ _ => True := by
  subst same
  exact load d hc (makes (.newInt d.rep _))

theorem execLen (d : Describes w e m) (hc : Held w e.store c n) :
    Drives w e m (Machine.execLen n) (Engine.execLen c) fun _ _ _ => True := by
  refine pop d hc fun r e₁ a m₁ w₁ d₁ keeps₁ hr => ?_
  have hc₁ := hc.keep keeps₁
  refine read_bind d₁ (.tag d₁.rep hr.home) ?_
  rintro t _ rfl
  cases t
  case array => exact read_bind d₁ (.itemsLength d₁.rep hr.home) fun xs k same => count d₁ hc₁ same
  case slice => exact read_bind d₁ (.sliceLength d₁.rep hr.home) fun k k' same => count d₁ hc₁ same
  case string => exact read_bind d₁ (.textLength d₁.rep hr.home) fun bs k same => count d₁ hc₁ same
  case channel => exact read_bind d₁ (.channelLength d₁.rep hr.home) fun x k same => count d₁ hc₁ same
  case unassigned => exact count d₁ hc₁ rfl
  all_goals exact aborts_bind d₁ rfl

theorem execCap (d : Describes w e m) (hc : Held w e.store c n) :
    Drives w e m (Machine.execCap n) (Engine.execCap c) fun _ _ _ => True := by
  refine pop d hc fun r e₁ a m₁ w₁ d₁ keeps₁ hr => ?_
  have hc₁ := hc.keep keeps₁
  refine read_bind d₁ (.tag d₁.rep hr.home) ?_
  rintro t _ rfl
  cases t
  case array => exact read_bind d₁ (.itemsLength d₁.rep hr.home) fun xs k same => count d₁ hc₁ same
  case slice => exact read_bind d₁ (.sliceCapacity d₁.rep hr.home) fun k k' same => count d₁ hc₁ same
  case channel => exact read_bind d₁ (.channelCapacity d₁.rep hr.home) fun x k same => count d₁ hc₁ same
  case unassigned => exact count d₁ hc₁ rfl
  all_goals exact aborts_bind d₁ rfl

theorem execSlice (d : Describes w e m) (hc : Held w e.store c n) (hasLow hasHigh : Bool) :
    Drives w e m (Machine.execSlice n hasLow hasHigh) (Engine.execSlice c hasLow hasHigh) fun _ _ _ => True := by
  refine popOption d hc fun high e₁ m₁ w₁ d₁ keeps₁ => ?_
  have hc₁ := hc.keep keeps₁
  refine popOption d₁ hc₁ fun low e₂ m₂ w₂ d₂ keeps₂ => ?_
  have hc₂ := hc₁.keep keeps₂
  refine pop d₂ hc₂ fun r e₃ a m₃ w₃ d₃ keeps₃ hr => ?_
  have hc₃ := hc₂.keep keeps₃
  refine read_bind d₃ (.tag d₃.rep hr.home) ?_
  rintro t _ rfl
  cases t
  case array => exact load d₃ hc₃ (.ofArray d₃.rep hr.home _ _)
  case slice => exact load d₃ hc₃ (.ofSlice d₃.rep hr.home _ _)
  case string => exact load d₃ hc₃ (.substring d₃.rep hr.home _ _)
  all_goals exact aborts d₃ rfl

theorem execAppend (d : Describes w e m) (hc : Held w e.store c n) (argc : Nat) :
    Drives w e m (Machine.execAppend n argc) (Engine.execAppend c argc) fun _ _ _ => True := by
  refine popMany argc d hc fun xs e₁ as m₁ w₁ d₁ keeps₁ held₁ => ?_
  have hc₁ := hc.keep keeps₁
  refine pop d₁ hc₁ fun r e₂ a m₂ w₂ d₂ keeps₂ hr => ?_
  have hc₂ := hc₁.keep keeps₂
  refine copies d₂ (held₁.imp fun _ _ held => held.keep keeps₂) fun ys e₃ bs m₃ w₃ d₃ keeps₃ held₃ => ?_
  have hc₃ := hc₂.keep keeps₃
  have hr₃ := hr.keep keeps₃
  refine read_bind d₃ (.tag d₃.rep hr₃.home) ?_
  rintro t _ rfl
  cases t
  case unassigned =>
    refine protecting d₃ (makes (.window d₃.rep d₃.rep.nil)) fun q e₄ b m₄ w₄ d₄ keeps₄ hq => ?_
    exact load d₄ (hc₃.keep keeps₄) (.append d₄.rep hq.home (held₃.imp fun _ _ held => (held.keep keeps₄).home))
  case slice => exact load d₃ hc₃ (.append d₃.rep hr₃.home (held₃.imp fun _ _ held => held.home))
  all_goals exact aborts_bind d₃ rfl

end Drives

end FiberMachine

/-! ## Instructions -/

namespace FiberMachine

open Ideal

variable {w w' : World} {e : Engine} {m : Machine} {c : Ref} {n : Nat}

namespace Drives

/-- An instruction that has nothing to do with channels. -/
theorem quietly {action : MachineM Outcome} {action' : EngineM Outcome} (f : Drives w e m action action' fun _ x y => x = y) :
    Drives w e m (do
      let outcome ← action
      return (outcome, [])) (Engine.quietly action') (Noted fun _ => Eq) :=
  f.bind fun _ _ _ _ _ d _ same => answer d ⟨same, .nil⟩

/-- An instruction after which the context keeps its turn. -/
theorem proceeding {action : MachineM Unit} {action' : EngineM Unit}
    (f : Drives w e m action action' fun _ _ _ => True) :
    Drives w e m (do
      let outcome ← Machine.proceeding action
      return (outcome, [])) (Engine.proceeding action') (Noted fun _ => Eq) :=
  quietly (f.bind fun _ _ _ _ _ d _ _ => answer d rfl)

theorem popAway (d : Describes w e m) (hc : Held w e.store c n) :
    Drives w e m (do let _ ← Machine.pop n) (do let _ ← Engine.pop c) fun _ _ _ => True :=
  pop d hc fun _ _ _ _ _ d₁ _ _ => answer d₁ trivial

theorem dup (d : Describes w e m) (hc : Held w e.store c n) :
    Drives w e m (do
        let top ← Context.peekOperand n
        Machine.push n top) (do
        let top ← peekOperand c
        Engine.push c top) fun _ _ _ => True :=
  read_bind d (.peekOperand d.rep hc.home) fun _ _ hv => push d hc.home hv

theorem setPc (d : Describes w e m) (hc : Held w e.store c n) (target : Nat) :
    Drives w e m (liftM (Context.setPc n target)) (liftM (Ideal.setPc c target)) fun _ _ _ => True :=
  (heap d (.setPc d.rep hc.home target)).weaken fun _ _ _ _ => trivial

theorem jumpIf (d : Describes w e m) (hc : Held w e.store c n) (target : Nat) (when : Bool → Bool) :
    Drives w e m (do if when (← Machine.popBool n) then Context.setPc n target)
      (do if when (← Engine.popBool c) then Ideal.setPc c target) fun _ _ _ => True := by
  refine popBool d hc fun x e₁ m₁ w₁ d₁ keeps₁ => ?_
  cases when x with
  | true => exact setPc d₁ (hc.keep keeps₁) target
  | false => exact answer d₁ trivial

theorem dispatch (d : Describes w e m) (hc : Held w e.store c n) (pc : Nat) (i : Instruction) :
    Drives w e m (Machine.dispatchNoting n pc i) (Engine.dispatch (w.capacity + 1) c pc i) (Noted fun _ => Eq) := by
  cases i with
  | nop => exact quietly (answer d rfl)
  | loadInt v => exact proceeding (load d hc (makes (.newInt d.rep v)))
  | loadFloat v => exact proceeding (load d hc (makes (.newFloat d.rep v)))
  | loadBool v => exact proceeding (load d hc (makes (.newBool d.rep v)))
  | loadString s => exact proceeding (load d hc (makes (.newText d.rep _)))
  | loadDefault kind => exact proceeding (load d hc (.zeroValue d.rep kind))
  | loadUnassigned => exact proceeding (push d hc.home d.rep.nil)
  | pop => exact proceeding (popAway d hc)
  | dup => exact proceeding (dup d hc)
  | loadVar frame slot => exact proceeding (execLoadVar d hc frame slot)
  | storeVar frame slot => exact proceeding (execStoreVar d hc frame slot)
  | binary op => exact proceeding (execBinary d hc op)
  | unary op => exact proceeding (execUnary d hc op)
  | jump target => exact proceeding (setPc d hc target)
  | jumpIfFalse target => exact proceeding (jumpIf d hc target Bool.not)
  | jumpIfTrue target => exact proceeding (jumpIf d hc target id)
  | enterScope names => exact proceeding (execEnterScope d hc pc names.length)
  | exitScope => exact proceeding (execExitScope d hc)
  | loadFunc entry params => exact proceeding (execLoadFunc d hc pc entry params.length)
  | call argc => exact quietly (execCall d hc (pc + 1) argc)
  | ret => exact quietly (execReturn d hc)
  | loadMethod method => exact proceeding (execLoadMethod d hc method)
  | callMethod method argc => exact quietly (execCallMethod d hc method argc)
  | makeArray k => exact proceeding (execMakeArray d hc k)
  | makeSlice elem hasCap => exact proceeding (execMakeSlice d hc elem hasCap)
  | index => exact proceeding (execIndex d hc)
  | storeIndex => exact proceeding (execStoreIndex d hc)
  | len => exact proceeding (execLen d hc)
  | cap => exact proceeding (execCap d hc)
  | slice low high => exact proceeding (execSlice d hc low high)
  | append argc => exact proceeding (execAppend d hc argc)
  | makeChan buffered => exact (execMakeChan d hc buffered).bind fun _ _ _ _ _ d₁ _ ⟨_, notes⟩ => answer d₁ ⟨rfl, notes⟩
  | send => exact execSend d hc (pc + 1)
  | recv => exact execRecv d hc (pc + 1)
  | selectSend target => exact proceeding (execSelectSend d hc target)
  | selectRecv target name => exact proceeding (execSelectRecv d hc pc target)
  | select cases default? => exact execSelect d hc cases default?
  | go argc => exact proceeding (execGo d hc argc)
  | print argc newline => exact proceeding (execPrint d hc argc newline)
  | done => exact quietly (answer d rfl)

theorem execute (d : Describes w e m) (hc : Held w e.store c n) (pc : Nat) (i : Instruction) :
    Drives w e m (Machine.executeNoting n pc i) (Engine.execute (w.capacity + 1) c pc i) (Noted fun _ => Eq) := by
  have f := dispatch d hc pc i
  unfold Drives Follows at f ⊢
  unfold Machine.executeNoting Engine.execute
  generalize Machine.dispatchNoting n pc i m = x, Engine.dispatch (w.capacity + 1) c pc i e = y at f ⊢
  cases f with
  | full full => exact .full full
  | error same failed => exact .error same failed
  | fault => exact .fault
  | wild => exact .wild
  | ok w' rel keeps q =>
    rename_i _ m' _ e'
    have size : m.heap.temporaries.size = e.store.temporaries.length := by
      rw [← Array.length_toList]
      exact d.rep.temporaries.length_eq.symm
    have rel : Describes w' e' m' := rel
    have keeps : Keeps w e.store w' e'.store := keeps
    obtain ⟨extra, eq⟩ := keeps.temporaries
    have front : e'.store.temporaries.take e.store.temporaries.length = e.store.temporaries := by
      rw [← eq, List.take_left]
    refine .ok w' ?_ ⟨keeps.capacity, keeps.origin, keeps.length, keeps.old, keeps.spot, keeps.contexts, ?_, keeps.placed⟩ q
    · refine { rel with rep := rel.rep.reroot ⟨rfl, rfl, rfl⟩ rfl rel.rep.contexts ?_ }
      have := List.forall₂_take e.store.temporaries.length rel.rep.temporaries
      simpa [size, Machine.releaseRoots, Engine.releaseRoots] using this
    · change _ <+: e'.store.temporaries.take _
      rw [front]
      exact List.prefix_rfl

end Drives

/-- Headers at addresses within the arena can be read. -/
theorem liveOrigins_eq {h : Heap} {origins : FrameOrigins} (inside : ∀ p ∈ origins, p.1 < h.capacity) :
    ∃ live, Machine.liveOrigins origins h = .ok live ∧ ∀ p ∈ live, p ∈ origins := by
  induction origins with
  | nil => exact ⟨[], rfl, fun _ hp => hp⟩
  | cons p rest ih =>
    obtain ⟨live, run, sub⟩ := ih fun q hq => inside q (List.mem_cons_of_mem _ hq)
    have here := inside p List.mem_cons_self
    have seen : ∃ x, (do
        if ← Heap.isFree p.1 then return false else return (← Heap.tag p.1) == .frame : HeapReader Bool) h = .ok x := by
      simp only [HeapReader.run_bind, Heap.isFree_eq here, Heap.tag_eq here, HeapReader.run_ite, HeapReader.run_pure]
      split
      · exact ⟨_, rfl⟩
      · exact ⟨_, rfl⟩
    obtain ⟨x, seen⟩ := seen
    refine ⟨if x then p :: live else live, ?_, ?_⟩
    · rw [Machine.liveOrigins, HeapReader.run_bind]
      simp only [seen, HeapReader.run_bind, run, HeapReader.run_pure]
    · intro q hq
      cases x with
      | true => exact (List.mem_cons.mp hq).elim (fun eq => eq ▸ List.mem_cons_self) fun hq => List.mem_cons_of_mem _ (sub q hq)
      | false => exact List.mem_cons_of_mem _ (sub q hq)

/-- Old origins are forgotten, which the engine does not see. -/
theorem Describes.prune (d : Describes w e m) : ∃ m', Machine.pruneOrigins m = .ok () m' ∧ Describes w e m' := by
  obtain ⟨live, run, sub⟩ := liveOrigins_eq d.origins
  have read : (liftM (Machine.liveOrigins m.origins) : MachineM FrameOrigins) m = .ok live m := by
    rw [Machine.run_reader, run]
  have here : (get : MachineM Machine) m = .ok m m := rfl
  unfold Machine.pruneOrigins
  simp only [run_bind, here]
  split
  · simp only [run_bind, here, read]
    exact ⟨_, rfl, { d with origins := fun p hp => d.origins p (sub p hp) }⟩
  · exact ⟨m, rfl, d⟩

end FiberMachine
