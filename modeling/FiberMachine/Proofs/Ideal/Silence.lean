import FiberMachine.Proofs.Ideal.Steady

/-!
# What a failing step prints

Only one instruction prints, and it does so last. So a step that fails has printed nothing: no action besides printing changes
the output, because none of the actions of which it consists does.
-/

namespace FiberMachine.Ideal

variable {τ α β : Type} {out : τ → Option String} {m : EStateM Lapse τ α} {k : α → EStateM Lapse τ β}

/-- Whether it fails or not, the action prints nothing. -/
structure Silent (out : τ → Option String) (m : EStateM Lapse τ α) : Prop where
  ok : ∀ t a t', m t = .ok a t' → out t' = out t
  error : ∀ t l t', m t = .error l t' → out t' = out t

/-- If it fails, the action has printed nothing. -/
def Reserved (out : τ → Option String) (m : EStateM Lapse τ α) : Prop := ∀ t l t', m t = .error l t' → l ≠ .wild → out t' = out t

theorem Silent.then_reserved (first : Silent out m) (next : ∀ a, Reserved out (k a)) : Reserved out (m >>= k) := by
  intro t l t'' run tame
  rw [run_bind] at run
  split at run
  next a t' eq => exact (next a t' l t'' run tame).trans (first.ok t a t' eq)
  next eq =>
    cases run
    exact first.error t l _ eq

theorem Silent.reserved (silent : Silent out m) : Reserved out m := fun t l t' run _ => silent.error t l t' run

/-- What comes last does not fail. -/
theorem Reserved.bind (first : Reserved out m) (last : ∀ a t, Safe (· = .wild) (k a) t fun _ _ => True) : Reserved out (m >>= k) := by
  intro t l t'' run tame
  rw [run_bind] at run
  split at run
  next a t' eq => exact absurd ((last a t').error run) tame
  next eq =>
    cases run
    exact first t l _ eq tame

namespace Silent

@[grind ←] theorem pure (a : α) : Silent out (pure a : EStateM Lapse τ α) where
  ok _ _ _ run := by cases run; rfl
  error _ _ _ run := by cases run

@[grind ←] theorem throw (l : Lapse) : Silent out (throw l : EStateM Lapse τ α) where
  ok _ _ _ run := by cases run
  error _ _ _ run := by cases run; rfl

@[grind ←] theorem bind (first : Silent out m) (next : ∀ a, Silent out (k a)) : Silent out (m >>= k) where
  error t l t'' run := by
    rw [run_bind] at run
    split at run
    next a t' eq => exact ((next a).error t' l t'' run).trans (first.ok t a t' eq)
    next eq =>
      cases run
      exact first.error t l _ eq
  ok t b t'' run := by
    rw [run_bind] at run
    split at run
    next a t' eq => exact ((next a).ok t' b t'' run).trans (first.ok t a t' eq)
    next => cases run

@[grind ←] theorem get : Silent out (MonadState.get : EStateM Lapse τ τ) where
  ok _ _ _ run := by cases run; rfl
  error _ _ _ run := by cases run

@[grind ←] theorem modifyGet {f : τ → α × τ} (same : ∀ t, out (f t).2 = out t) : Silent out (modifyGet f : EStateM Lapse τ α) where
  ok t _ _ run := by cases run; exact same t
  error _ _ _ run := by cases run

@[grind ←] theorem modify {f : τ → τ} (same : ∀ t, out (f t) = out t) : Silent out (modify f : EStateM Lapse τ PUnit) :=
  modifyGet same

@[grind ←] theorem map {f : α → β} (silent : Silent out m) : Silent out (f <$> m) := by
  rw [map_eq_pure_bind]
  exact silent.bind fun _ => .pure _

@[grind ←] theorem forM {f : Ref → EStateM Lapse τ PUnit} {xs : List Ref} (each : ∀ x, Silent out (f x)) : Silent out (xs.forM f) := by
  induction xs with
  | nil => exact .pure _
  | cons x xs ih => exact (each x).bind fun _ => ih

theorem mapM {f : Ref → EStateM Lapse τ β} {xs : List Ref} (each : ∀ x, Silent out (f x)) : Silent out (xs.mapM f) := by
  induction xs with
  | nil => exact .pure _
  | cons x xs ih =>
    rw [List.mapM_cons]
    exact (each x).bind fun _ => ih.bind fun _ => .pure _

/-! ### Instructions -/

section

variable {c r l : Ref} {xs : List Ref} {n i j : Nat} {v : Int} {o? : Option Ref} {n? : Option Nat} {op : BinaryOp} {uop : UnaryOp}
  {method : String} {kind : ValueKind} {b b' : Bool} {q : Request}

open Engine

@[grind ←] theorem onStore (n : StoreM α) : Silent Engine.output (liftM n : EngineM α) where
  ok e _ _ run := by
    rw [run_store] at run
    split at run <;> cases run
    rfl
  error e _ _ run := by
    rw [run_store] at run
    split at run <;> cases run
    rfl

@[grind ←] theorem abort (cause : MachineError) : Silent Engine.output (abort cause : EngineM α) := .throw _

@[grind ←] theorem unexpected {t u : Tag} : Silent Engine.output (unexpected t u : EngineM α) := .throw _

@[grind ←] theorem pop : Silent Engine.output (pop c) := by grind [Engine.pop]

@[grind ←] theorem popOnto : Silent Engine.output (popOnto c xs n) := by
  induction n generalizing xs with grind [Engine.popOnto]

@[grind ←] theorem popMany : Silent Engine.output (popMany c n) := by grind [Engine.popMany]

@[grind ←] theorem popInt : Silent Engine.output (popInt c) := by grind [Engine.popInt]

@[grind ←] theorem popBool : Silent Engine.output (popBool c) := by grind [Engine.popBool]

@[grind ←] theorem push : Silent Engine.output (push c r) := .onStore _

@[grind ←] theorem protecting {make : StoreM Ref} : Silent Engine.output (protecting make) := by grind [Engine.protecting]

@[grind ←] theorem copies : Silent Engine.output (copies xs) := by
  induction xs with grind [Engine.copies]

@[grind ←] theorem load {make : StoreM Ref} : Silent Engine.output (load c make) := by grind [Engine.load]

@[grind ←] theorem enqueue : Silent Engine.output (enqueue c) := by grind [Engine.enqueue]

@[grind ←] theorem ofExcept {p : Except MachineError α} : Silent Engine.output (ofExcept p) := by
  cases p with grind [Engine.ofExcept]

@[grind ←] theorem wakeAll : Silent Engine.output (wakeAll xs) := by grind [Engine.wakeAll]

@[grind ←] theorem wakeOption : Silent Engine.output (wakeOption o?) := by
  cases o? with grind [Engine.wakeOption]

@[grind ←] theorem execLoadVar : Silent Engine.output (execLoadVar c n i) := by grind [Engine.execLoadVar]

@[grind ←] theorem execStoreVar : Silent Engine.output (execStoreVar c n i) := by grind [Engine.execStoreVar]

@[grind ←] theorem execEnterScope : Silent Engine.output (execEnterScope c n) := by grind [Engine.execEnterScope]

@[grind ←] theorem execExitScope : Silent Engine.output (execExitScope c) := by grind [Engine.execExitScope]

@[grind ←] theorem onReferences : Silent Engine.output (onReferences op r l) := by grind [Engine.onReferences]

@[grind ←] theorem applyBinary : Silent Engine.output (applyBinary op r l) := by grind [Engine.applyBinary]

@[grind ←] theorem execBinary : Silent Engine.output (execBinary c op) := by grind [Engine.execBinary]

@[grind ←] theorem applyUnary : Silent Engine.output (applyUnary uop r) := by grind [Engine.applyUnary]

@[grind ←] theorem execUnary : Silent Engine.output (execUnary c uop) := by grind [Engine.execUnary]

@[grind ←] theorem execLoadFunc : Silent Engine.output (execLoadFunc c n i j) := by grind [Engine.execLoadFunc]

@[grind ←] theorem bindParameters : Silent Engine.output (bindParameters r n xs) := by
  induction xs generalizing n with grind [Engine.bindParameters]

@[grind ←] theorem bindArguments : Silent Engine.output (bindArguments r xs) := by
  unfold Engine.bindArguments
  refine .bind (.onStore _) fun _ => ?_
  dsimp only
  split <;> grind

@[grind ←] theorem expectArguments : Silent Engine.output (expectArguments xs n) := by grind [Engine.expectArguments]

@[grind ←] theorem callMethod : Silent Engine.output (callMethod c r method xs) := by grind [Engine.callMethod]

@[grind ←] theorem execCall : Silent Engine.output (execCall c n i) := by
  unfold Engine.execCall
  refine .bind popMany fun _ => .bind pop fun _ => .bind (.onStore _) fun _ => ?_
  split <;> grind

@[grind ←] theorem unwind : Silent Engine.output (unwind c n) := by
  induction n with
  | zero => exact .abort _
  | succ n ih =>
    unfold Engine.unwind
    refine .bind (.onStore _) fun f => ?_
    dsimp only
    split
    · refine .bind (.abort _) fun _ => .bind (.onStore _) fun _ => .bind (.onStore _) fun _ => ?_
      split <;> grind
    · refine .bind (.onStore _) fun _ => .bind (.onStore _) fun _ => ?_
      split <;> grind

@[grind ←] theorem execReturn : Silent Engine.output (execReturn c) := by grind [Engine.execReturn]

@[grind ←] theorem execLoadMethod : Silent Engine.output (execLoadMethod c method) := by grind [Engine.execLoadMethod]

@[grind ←] theorem execCallMethod : Silent Engine.output (execCallMethod c method n) := by grind [Engine.execCallMethod]

@[grind ←] theorem freshId : Silent Engine.output (freshId ) := by grind [Engine.freshId]

@[grind ←] theorem execGo : Silent Engine.output (execGo c n) := by
  unfold Engine.execGo
  refine .bind popMany fun _ => .bind pop fun _ => .bind (.onStore _) fun _ => .bind bindArguments fun _ => .bind freshId fun _ => ?_
  grind

@[grind ←] theorem execMakeArray : Silent Engine.output (execMakeArray c n) := by grind [Engine.execMakeArray]

@[grind ←] theorem fillZero : Silent Engine.output (fillZero r kind i n) := by
  induction n generalizing i with grind [Engine.fillZero]

@[grind ←] theorem execMakeSlice : Silent Engine.output (execMakeSlice c kind b) := by grind [Engine.execMakeSlice]

@[grind ←] theorem execIndex : Silent Engine.output (execIndex c) := by grind [Engine.execIndex]

@[grind ←] theorem storeAt : Silent Engine.output (storeAt r v r') := by grind [Engine.storeAt]

@[grind ←] theorem execStoreIndex : Silent Engine.output (execStoreIndex c) := by grind [Engine.execStoreIndex]

@[grind ←] theorem execLen : Silent Engine.output (execLen c) := by grind [Engine.execLen]

@[grind ←] theorem execCap : Silent Engine.output (execCap c) := by grind [Engine.execCap]

@[grind ←] theorem execSlice : Silent Engine.output (execSlice c b b') := by grind [Engine.execSlice]

@[grind ←] theorem execAppend : Silent Engine.output (execAppend c n) := by grind [Engine.execAppend]

@[grind ←] theorem execMakeChan : Silent Engine.output (execMakeChan c b) := by grind [Engine.execMakeChan]

@[grind ←] theorem blockForever : Silent Engine.output (blockForever c) := by grind [Engine.blockForever]

@[grind ←] theorem parkRequest : Silent Engine.output (parkRequest q) := by grind [Engine.parkRequest]

@[grind ←] theorem execSend : Silent Engine.output (execSend c n) := by
  unfold Engine.execSend
  refine .bind pop fun _ => .bind pop fun _ => .bind (.onStore _) fun _ => ?_
  split
  · refine .bind protecting fun _ => .bind (.onStore _) fun _ => ?_
    split <;> grind
  · exact blockForever

@[grind ←] theorem execRecv : Silent Engine.output (execRecv c n) := by
  unfold Engine.execRecv
  refine .bind pop fun _ => .bind (.onStore _) fun _ => ?_
  split
  · refine .bind (.onStore _) fun _ => ?_
    split <;> grind
  · exact blockForever

@[grind ←] theorem execSelectSend : Silent Engine.output (execSelectSend c n) := by grind [Engine.execSelectSend]

@[grind ←] theorem execSelectRecv : Silent Engine.output (execSelectRecv c n) := by grind [Engine.execSelectRecv]

@[grind ←] theorem selectAmong : Silent Engine.output (selectAmong c xs n?) := by
  unfold Engine.selectAmong
  refine .bind (.onStore _) fun _ => ?_
  split
  · grind
  · split <;> grind

@[grind ←] theorem shuffled : Silent Engine.output (shuffled xs) := by grind [Engine.shuffled]

@[grind ←] theorem execSelect : Silent Engine.output (execSelect c n n?) := by grind [Engine.execSelect]

@[grind ←] theorem quietly {action : EngineM Outcome} (silent : Silent Engine.output action) :
    Silent Engine.output (quietly action) := by grind [Engine.quietly]

@[grind ←] theorem proceeding {action : EngineM Unit} (silent : Silent Engine.output action) :
    Silent Engine.output (proceeding action) := by grind [Engine.proceeding]

end

end Silent

namespace Engine

variable {depth pc argc : Nat} {c : Ref} {i : Instruction} {newline : Bool}

theorem execPrint_reserved : Reserved Engine.output (execPrint depth c argc newline) :=
  Silent.popMany.then_reserved fun _ => (Silent.mapM fun _ => .onStore _).reserved.bind fun _ _ => .of_ok rfl trivial

/-- An instruction that fails has printed nothing. -/
theorem dispatch_reserved : Reserved Engine.output (dispatch depth c pc i) := by
  cases i with
  | print argc newline => exact (execPrint_reserved.bind fun _ _ => .of_ok rfl trivial).bind fun _ _ => .of_ok rfl trivial
  | _ =>
    apply Silent.reserved
    unfold dispatch
    grind

theorem execute_reserved : Reserved Engine.output (execute depth c pc i) := by
  intro e l e' run tame
  unfold execute at run
  dsimp only at run
  split at run
  next => cases run
  next eq =>
    cases run
    have same := dispatch_reserved e l _ eq tame
    exact same

end Engine

namespace Course

variable {depth : Nat} {t t' : Course} {c : Ref} {o : Outcome} {l : Lapse}

/-- What is printed in the course. -/
def output (t : Course) : Option String := t.engine.output

theorem silent_engine {m : EngineM α} (silent : Silent Engine.output m) : Silent output (liftM m : CourseM α) where
  ok t _ _ run := by
    rw [run_engine] at run
    split at run
    next eq =>
      cases run
      have same := silent.ok _ _ _ eq
      exact same
    next => cases run
  error t _ _ run := by
    rw [run_engine] at run
    split at run
    next => cases run
    next eq =>
      cases run
      have same := silent.error _ _ _ eq
      exact same

theorem reserved_engine {m : EngineM α} (reserved : Reserved Engine.output m) : Reserved output (liftM m : CourseM α) := by
  intro t l t' run tame
  rw [run_engine] at run
  split at run
  next => cases run
  next eq =>
    cases run
    have same := reserved _ _ _ eq tame
    exact same

theorem silent_store (m : StoreM α) : Silent output (liftM m : CourseM α) := silent_engine (.onStore m)

theorem abort_silent (cause : MachineError) : Silent output (abort cause : CourseM α) := .throw _

theorem stall_silent : Silent output stall := by
  have finish : Silent output finish := .modify fun _ => rfl
  have finished : Silent output (do
      Course.finish
      return StepOutcome.finished) := finish.bind fun _ => .pure _
  unfold stall
  refine .bind .get fun x => ?_
  dsimp only
  split
  · refine .bind (silent_store _) fun blocked => ?_
    split
    · exact .bind (silent_store _) fun report => .bind (abort_silent _) fun _ => finished
    · exact finished
  · exact finished

theorem countInstruction_silent : Silent output countInstruction := by
  unfold countInstruction
  refine .bind (.modify fun _ => rfl) fun _ => .bind .get fun x => .bind .get fun y => ?_
  split
  · exact abort_silent _
  · exact .pure _

theorem fetch_silent : Silent output (fetch c) := by
  unfold fetch
  refine .bind (silent_store _) fun f => .bind .get fun x => ?_
  split
  · exact abort_silent _
  · exact .bind (silent_store _) fun _ => .pure _

/-- What comes after an instruction never fails. -/
theorem settle_tame (t : Course) : Safe (· = .wild) (settle c o) t fun _ _ => True := by
  have looked (t : Course) : Safe (· = .wild) (liftM (fiber c) : CourseM Fiber) t fun _ _ => True :=
    safe_store (.look (fun _ _ => trivial) fun _ => rfl)
  cases o with
  | proceed =>
    refine .bind (Q := fun _ _ => True) (.of_ok rfl trivial) fun _ t' _ => .skip rfl ?_
    dsimp only
    split
    · exact .of_ok rfl trivial
    · exact .pure trivial
  | block => exact .bind (Q := fun _ _ => True) (.of_ok rfl trivial) fun _ _ _ => .bind (looked _) fun _ _ _ => .pure trivial
  | finish =>
    refine .bind (Q := fun _ _ => True) (.of_ok rfl trivial) fun _ t' _ => .skip rfl ?_
    have rest (t : Course) : Safe (· = .wild) (do
        retireContext c
        let _ ← fiber c
        modify fun x => { x with mainDone := x.mainDone || c == x.main }
        let x ← get
        if x.mainDone && !x.engine.scheduler.hasWork then finish : CourseM Unit) t fun _ _ => True := by
      refine .bind (Q := fun _ _ => True) (.of_ok rfl trivial) fun _ t' _ => .bind (looked _) fun _ t' _ =>
        .bind (Q := fun _ _ => True) (.of_ok rfl trivial) fun _ t' _ => .skip rfl ?_
      split
      · exact .of_ok rfl trivial
      · exact .pure trivial
    split
    · exact .bind (Q := fun _ _ => True) rfl fun _ _ _ => rest _
    · exact rest _

theorem advance_reserved : Reserved output (advance depth) := by
  have schedule : Silent output (schedule Scheduler.dispatch) := .modify fun _ => rfl
  unfold advance
  refine schedule.then_reserved fun _ => Silent.get.then_reserved fun x => ?_
  split
  · exact stall_silent.reserved.bind fun _ _ => .pure trivial
  · refine countInstruction_silent.then_reserved fun _ => fetch_silent.then_reserved fun p => ?_
    refine (reserved_engine Engine.execute_reserved).bind fun _ _ => ?_
    exact .bind (settle_tame _) fun _ _ _ => .pure trivial

/-- A step that fails has printed nothing. -/
theorem output_of_error (run : step depth t = .error l t') (tame : l ≠ .wild) : t'.engine.output = t.engine.output := by
  rw [step_eq] at run
  split at run
  · cases run
  · split at run
    next => cases run
    next eq =>
      cases run
      have same := advance_reserved t _ _ eq tame
      exact same
    next eq =>
      cases run
      have same := advance_reserved t _ _ eq tame
      exact same

end Course

end FiberMachine.Ideal
