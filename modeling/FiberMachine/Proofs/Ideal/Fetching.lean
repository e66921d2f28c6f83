import FiberMachine.Proofs.Ideal.Acting
import FiberMachine.Proofs.Ideal.Positions

/-!
# Fetching past the end

A step keeps the bounds on positions if its instruction does. So a context that has not executed the last instruction is at no
position outside the program, and a context at such a position is just behind the last instruction.
-/

namespace FiberMachine.Ideal

/-- The bounds for a program of `n` instructions, the last of which only the contexts in `past` have executed. -/
def Bounds.past (n : Nat) (past : List Ref) : Bounds where
  low := n - 1
  limit c := if c ∈ past then n else n - 1
  high := n
  low_le c := by split <;> omega
  limit_le c := by split <;> omega

variable {β γ : Bounds} {s s' : Store} {t t' : Course} {c r : Ref} {o : Outcome} {f : Fiber} {i : Instruction} {e : Engine} {past : List Ref}
  {depth n p : Nat} {events : List Event} {l : Lapse} {l' : List Ref}

theorem Store.Bounded.weaken (bounded : s.Bounded β) (low : β.low ≤ γ.low) (limit : ∀ c, β.limit c ≤ γ.limit c) (high : β.high ≤ γ.high) :
    s.Bounded γ := fun r o ho => by
  have fits := bounded r o ho
  cases o with
  | context f => exact ⟨Nat.le_trans fits.1 (limit r), fits.2.1.mono (limit r), fun m hm => (fits.2.2 m hm).mono (limit r)⟩
  | request q => exact ⟨Nat.le_trans fits.1 (limit _), fun inside => (fits.2 inside).mono (limit _)⟩
  | func k => exact Nat.le_trans fits low
  | number t w => exact fun marker lasts => Nat.le_trans (fits marker lasts) high
  | _ => trivial

theorem Store.Bounded.later (bounded : s.Bounded (.past n past)) (c : Ref) : s.Bounded (.past n (c :: past)) := by
  refine bounded.weaken (Nat.le_refl _) (fun d => ?_) (Nat.le_refl _)
  dsimp only [Bounds.past]
  split
  next old => rw [if_pos (List.mem_cons_of_mem _ old)]
  next => split <;> omega

theorem Store.Bounded.objects (bounded : s.Bounded β) (same : s'.objects = s.objects) : s'.Bounded β :=
  ((Store.Heeds.refl bounded).reroot same).bounded

namespace Course

/-- No position in the course is outside the program, and only the contexts in `past` go on behind its last instruction. -/
def Placed (t : Course) (past : List Ref) : Prop := t.engine.store.Bounded (.past t.code.size past)

/-- The contexts that have executed the last instruction after the context `c` has executed the one at `p`. -/
def passing (t : Course) (past : List Ref) (c : Ref) (p : Nat) : List Ref := if p + 1 = t.code.size then c :: past else past

theorem start_placed (code : Array Instruction) (config : Config) : (start code config).Placed [] := by
  intro r o ho
  have back : initial.Returns 1 (code.size - 1) := Store.IsTag.returns ⟨.sequence .environment [], rfl, rfl⟩ nofun
  rcases initial_cases ho with ⟨rfl, rfl⟩ | ⟨rfl, rfl⟩ | ⟨rfl, rfl⟩
  · trivial
  · trivial
  · exact ⟨Nat.zero_le _, back, nofun⟩

/-- The bounds that the fetched instruction keeps. -/
theorem Placed.fetched (placed : t.Placed past) (fiber : t.engine.store.objects[c]? = some (.context f)) (instruction : t.code[f.pc]? = some i) :
    (t.fetchedStore c f).Bounded (.past t.code.size (t.passing past c f.pc)) ∧
      f.pc + 1 ≤ (Bounds.past t.code.size (t.passing past c f.pc)).limit c := by
  have inside := (Array.getElem?_eq_some_iff.mp instruction).1
  have more : t.engine.store.Bounded (.past t.code.size (t.passing past c f.pc)) := by
    unfold passing
    split
    · exact placed.later c
    · exact placed
  have next : f.pc + 1 ≤ (Bounds.past t.code.size (t.passing past c f.pc)).limit c := by
    dsimp only [passing, Bounds.past]
    split
    · rw [if_pos List.mem_cons_self]
      omega
    · split <;> omega
  have fits := more _ _ fiber
  refine ⟨(Store.Heeds.set more fiber (by nofun) (by nofun) ?_).bounded, next⟩
  exact ⟨Nat.le_trans (Nat.mod_le _ _) next, fits.2⟩

/-- An instruction of the program names positions in it. -/
def Targeted (t : Course) : Prop := ∀ i ∈ t.code, ∀ p ∈ i.targets, p < t.code.size

theorem Targeted.low (targeted : t.Targeted) (instruction : t.code[n]? = some i) : ∀ p ∈ i.targets, p ≤ t.code.size - 1 := fun p hp => by
  obtain ⟨inside, same⟩ := Array.getElem?_eq_some_iff.mp instruction
  have := targeted i (same ▸ Array.getElem_mem inside) p hp
  omega

/-- An instruction keeps the bounds. -/
theorem Executed.placed (executed : Executed depth t c f i o events e t') (targeted : t.Targeted) (placed : t.Placed past) :
    t'.Placed (t.passing past c f.pc) := by
  obtain ⟨fetched, next⟩ := placed.fetched executed.fiber executed.instruction
  have bounds : Safe Lapse.Placed (Engine.execute depth c f.pc i) (t.fetchedEngine c f) fun _ e' =>
      e'.store.Bounded (.past t.code.size (t.passing past c f.pc)) :=
    Engine.execute_safe ((Bounding.dispatch (targeted.low executed.instruction) next (t.fetchedEngine c f) fetched).weaken
      fun _ _ heeds => heeds.bounded.objects rfl)
  unfold Placed
  rw [executed.code]
  exact (bounds.ok executed.run).objects executed.objects

/-! ### Failing -/

theorem look_placed {κ : Type} {see : Obj → Option κ} : Safe Lapse.Placed (look see r) s fun _ s' => s' = s :=
  Safe.look (fun _ _ => rfl) fun _ => trivial

theorem deadlockReport_placed (code : Array Instruction) : Safe Lapse.Placed (deadlockReport code l') s fun _ s' => s' = s := by
  refine (Safe.mapM (P := fun _ _ => True) fun c _ => ?_).weaken fun _ _ found => found.1
  refine Safe.bind look_placed ?_
  rintro f _ rfl
  refine Safe.bind look_placed ?_
  rintro f _ rfl
  exact .pure ⟨rfl, trivial⟩

theorem blockedAmong_placed : Safe Lapse.Placed (blockedAmong l') s fun _ s' => s' = s := by
  induction l' with
  | nil => exact .pure rfl
  | cons c rest ih =>
    refine Safe.bind look_placed ?_
    rintro f _ rfl
    refine Safe.bind ih ?_
    rintro others _ rfl
    exact .pure rfl

theorem stall_placed : Safe Lapse.Placed stall t fun _ _ => True := by
  have isOver : Safe Lapse.Placed (do finish; return StepOutcome.finished) t fun _ _ => True := trivial
  refine Safe.skip (a := t) rfl ?_
  split
  · refine observe_same blockedAmong_placed fun blocked => ?_
    split
    · exact observe_same (deadlockReport_placed _) fun _ => trivial
    · exact isOver
  · exact isOver

theorem settle_placed : Safe Lapse.Placed (settle c o) t fun _ _ => True := by
  cases o with
  | proceed =>
    refine Safe.bind (Q := fun _ _ => True) (.of_ok rfl trivial) fun _ t₁ _ => Safe.skip (a := t₁) rfl ?_
    dsimp only
    split <;> trivial
  | block =>
    refine Safe.bind (Q := fun _ _ => True) (.of_ok rfl trivial) fun _ t₁ _ => ?_
    exact observe_same look_placed fun _ => trivial
  | finish =>
    refine Safe.bind (Q := fun _ _ => True) (.of_ok rfl trivial) fun _ t₁ _ => Safe.skip (a := t₁) rfl ?_
    split
    · trivial
    refine Safe.bind (Q := fun _ _ => True) (.of_ok rfl trivial) fun _ t₂ _ => observe_same look_placed fun _ => ?_
    refine Safe.bind (Q := fun _ _ => True) (.of_ok rfl trivial) fun _ t₃ _ => Safe.skip (a := t₃) rfl ?_
    split <;> trivial

/-- A failure that reports a position outside the program has found the context that has the turn there. -/
def Misses (t : Course) (l : Lapse) : Prop := ∀ p, l = .error (.pcOutOfRange p) →
  ∃ c, t.engine.scheduler.dispatch.current = some c ∧ t.engine.store.PcAt c p ∧ t.code[p]? = none

theorem Misses.of_placed (placed : l.Placed) : t.Misses l := fun _ same => (same ▸ placed :).elim

theorem fetch_misses : Safe (fun l => ∀ p, l = .error (.pcOutOfRange p) → t.engine.store.PcAt c p ∧ t.code[p]? = none) (fetch c) t
    fun _ _ => True := by
  refine Safe.bind (Q := fun f t' => t' = t ∧ t.engine.store.objects[c]? = some (.context f))
    (safe_store (Safe.look (fun f seen => ⟨rfl, object_of_fiber seen⟩) fun _ => nofun)) ?_
  rintro f t ⟨rfl, ho⟩
  refine Safe.skip (a := t) rfl ?_
  cases instruction : t.code[f.pc]? with
  | none => exact fun p same => by cases same; exact ⟨⟨f, ho, rfl⟩, instruction⟩
  | some i => exact Safe.bind (Q := fun _ _ => True) (safe_store (Safe.look_bind (fun _ _ => trivial) fun _ => nofun)) fun _ _ _ => trivial

theorem advance_misses (targeted : t.Targeted) (placed : t.Placed past) : Safe t.Misses (advance depth) t fun _ _ => True := by
  refine Safe.bind (Q := fun _ t' => t' = { t with engine := { t.engine with scheduler := t.engine.scheduler.dispatch } })
    (.of_ok rfl rfl) ?_
  rintro _ _ rfl
  refine Safe.skip rfl ?_
  dsimp only
  cases turn : t.engine.scheduler.dispatch.current with
  | none => exact Safe.bind (stall_placed.relax fun _ => .of_placed) fun _ _ _ => trivial
  | some c =>
    refine Safe.bind (Q := fun _ t' => t' = { t with
      engine := { t.engine with scheduler := t.engine.scheduler.dispatch }, executed := t.executed + 1 }) ?_ ?_
    · refine Safe.bind (Q := fun _ t' => t' = { t with
        engine := { t.engine with scheduler := t.engine.scheduler.dispatch }, executed := t.executed + 1 }) (.of_ok rfl rfl) ?_
      rintro _ _ rfl
      refine Safe.skip rfl (Safe.skip rfl ?_)
      split
      · exact Misses.of_placed trivial
      · rfl
    rintro _ _ rfl
    refine Safe.bind ((fetch_misses.relax fun l miss p same => ⟨c, turn, miss p same⟩).both (fetch_stage.relax fun _ _ => trivial)) ?_
    rintro ⟨_, i⟩ _ ⟨_, f, ho, rfl, instruction, rfl⟩
    obtain ⟨fetched, next⟩ := placed.fetched ho instruction
    refine Safe.bind (Q := fun _ _ => True) (safe_engine (Engine.execute_safe ?_)) fun p t₁ _ => ?_
    · exact ((Bounding.dispatch (targeted.low instruction) next (t.fetchedEngine c f) fetched).relax fun _ => .of_placed).weaken
        fun _ _ _ => trivial
    · exact Safe.bind (settle_placed.relax fun _ => .of_placed) fun _ _ _ => trivial

/-- When a step reports a position outside the program. -/
theorem step_misses (targeted : t.Targeted) (placed : t.Placed past) (run : step depth t = .error l t') : t.Misses l := by
  rw [step_eq] at run
  split at run
  · cases run
  · split at run
    · cases run
    next eq => cases run; exact (advance_misses targeted placed).error eq
    next eq => cases run; exact (advance_misses targeted placed).error eq

/-- A context that is outside the program is just behind its last instruction, which it has executed. -/
theorem Placed.outside (placed : t.Placed past) (pc : t.engine.store.PcAt c p) (outside : t.code[p]? = none) :
    p = t.code.size ∧ (0 < t.code.size → c ∈ past) := by
  obtain ⟨f, hf, rfl⟩ := pc
  have le := (placed _ _ hf).1
  have ge := Array.getElem?_eq_none_iff.mp outside
  dsimp only [Bounds.past] at le
  split at le
  next inside => exact ⟨Nat.le_antisymm le ge, fun _ => inside⟩
  next => exact ⟨by omega, by omega⟩

end Course

end FiberMachine.Ideal
