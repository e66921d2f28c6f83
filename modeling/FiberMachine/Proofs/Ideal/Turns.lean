import FiberMachine.Proofs.Ideal.Balance
import FiberMachine.Proofs.Ideal.Displaying
import FiberMachine.Proofs.Ideal.Instructions

/-!
# Instructions that communicate

What an instruction does beyond its own context: contexts that were blocked go on and are ready, or its own context
blocks. What it notes is about channels that the context names, by an operand or by a request.
-/

namespace FiberMachine.Ideal

variable {F : Prop} {s s' : Store} {v c d q : Ref} {t : Tag} {xs l : List Ref} {events : List Event}

/-- The channel is an operand of the context, or that of a request that is one. -/
def Store.Mentions (s : Store) (c d : Ref) : Prop :=
  ∃ xs, s.Operands c xs ∧ (d ∈ xs ∨ ∃ q ∈ xs, ∃ r, s.IsRequest q r ∧ r.channel = d)

/-- What is noted is about a new channel, or about channels that the context mentions. -/
def About (s : Store) (c : Ref) (s' : Store) (events : List Event) : Prop :=
  (∃ d, events = [.made d] ∧ ¬s.Known d ∧ s'.Mentions c d) ∨
    ∀ x ∈ events, x = .stranded c ∨ ∃ d, x.channel? = some d ∧ s.Mentions c d

theorem About.none : About s c s' [] := .inr fun _ no => absurd no List.not_mem_nil

theorem About.on (on : On d events) (mentions : s.Mentions c d) : About s c s' events :=
  .inr fun x hx => .inr ⟨d, on x hx, mentions⟩

/-- The argument does not take the counter of the wait group beyond its largest value. -/
def Store.Fits (s : Store) (g v : Ref) : Prop :=
  ∀ w queue delta, s.objects[g]? = some (.waitGroup w queue) → s.objects[v]? = some (.number .int delta) →
    w.toInt64.toInt + delta.toInt64.toInt ≤ Int64.maxValue.toInt

theorem Store.Fits.onlyAt {g : Ref} (fits : s.Fits g v) (others : s.OnlyAt c s') (k : s'.IsTag c .context) : s'.Fits g v := by
  have same {r : Ref} {o : Obj} (other : o.tag ≠ .context) (ho : s'.objects[r]? = some o) : s.objects[r]? = some o := by
    by_cases e : r = c
    · subst e
      exact absurd (Store.IsTag.unique ⟨o, ho, rfl⟩ k) other
    · exact others r e ▸ ho
  exact fun w queue delta hg hv => fits w queue delta (same Tag.noConfusion hg) (same Tag.noConfusion hv)

/-- What an instruction does with the context `c` that has the turn. -/
inductive Acts (i : Instruction) (c : Ref) (e : Engine) : Outcome × List Event → Engine → Prop where
  | runs {l outcome events e'} (still : outcome ≠ .block) (exchanged : Exchanged e.store l events e'.store)
      (scheduler : e'.scheduler = { e.scheduler with ready := e.scheduler.ready ++ l }) (output : e'.output = e.output)
      (nextId : e'.nextId = e.nextId) (about : About e.store c e'.store events) : Acts i c e (outcome, events) e'
  | blocks {events e'} (halted : Halted e.store c events e'.store) (scheduler : e'.scheduler = e.scheduler)
      (output : e'.output = e.output) (nextId : e'.nextId = e.nextId) (about : About e.store c e'.store events)
      (stranded : e'.store.waits c = [] → .stranded c ∈ events)
      (choosing : 2 ≤ (e'.store.waits c).length → (∃ n default?, i = .select n default?) ∧
        ∀ n, e.store.PcAt c n → e'.store.blockedAt c = some n) : Acts i c e (.block, events) e'

namespace Engine

variable {α β : Type} {e e' : Engine} {i : Instruction} {r : Request}

/-- The invariants hold, and the context has the turn. -/
structure Turn (e : Engine) (c : Ref) : Prop where
  linked : Linked e.store
  running : e.store.Running c

theorem Turn.active (turn : Turn e c) : Active e.store c := ⟨turn.linked.typed, turn.running⟩

theorem Turn.keep (turn : Turn e c) (calm : Calm e.store e'.store) : Turn e' c :=
  ⟨turn.linked.calm calm, turn.running.keep calm⟩

theorem observe_safe {n : StoreM α} {l : α → EngineM β} {R : α → Prop} {Q : β → Engine → Prop} (f : Observes F n e.store R)
    (next : ∀ a, R a → Safe (Admits F) (l a) e Q) : Safe (Admits F) (liftM n >>= l) e Q :=
  Safe.bind (Q := fun a e' => e' = e ∧ R a) (safe_store (Safe.weaken f fun _ _ ⟨same, p⟩ => ⟨by rw [same], p⟩))
    fun a _ ⟨same, p⟩ => same ▸ next a p

/-! ### Ready contexts -/

theorem enqueue_safe {Q : Unit → Engine → Prop} (registered : c ∈ e.store.contexts)
    (q : Q () { e with scheduler := { e.scheduler with ready := e.scheduler.ready ++ [c] } }) : Safe (Admits F) (enqueue c) e Q :=
  Safe.bind (Q := fun _ e' => e' = e) (safe_store (Quiet.expectRegistered registered rfl)) fun _ _ same => same ▸ q

theorem wakeOption_safe {woken : Option Ref} {Q : Outcome → Engine → Prop} (registered : ∀ x ∈ woken.toList, x ∈ e.store.contexts)
    (q : Q .proceed { e with scheduler := { e.scheduler with ready := e.scheduler.ready ++ woken.toList } }) :
    Safe (Admits F) (wakeOption woken) e Q := by
  cases woken with
  | none =>
    rw [Option.toList_none, List.append_nil] at q
    exact .pure q
  | some x => exact Safe.bind (enqueue_safe (Q := fun _ e' => _ = e') (registered x (List.mem_singleton_self x)) rfl) fun _ _ same => same ▸ q

theorem wakeAll_safe {Q : Outcome → Engine → Prop} (registered : ∀ x ∈ l, x ∈ e.store.contexts)
    (q : Q .proceed { e with scheduler := { e.scheduler with ready := e.scheduler.ready ++ l } }) : Safe (Admits F) (wakeAll l) e Q := by
  have loop : Safe (Admits F) (l.forM enqueue) e fun _ e' =>
      e' = { e with scheduler := { e.scheduler with ready := e.scheduler.ready ++ l } } := by
    refine (Safe.forM (I := fun rest e' => ∃ front, l = front ++ rest ∧
      e' = { e with scheduler := { e.scheduler with ready := e.scheduler.ready ++ front } }) ⟨[], rfl, by simp⟩ ?_).weaken ?_
    · rintro x rest e' ⟨front, split, rfl⟩
      refine enqueue_safe (registered x (by simp [split])) ⟨front ++ [x], by simp [split], ?_⟩
      simp only [List.append_assoc]
    · rintro _ e' ⟨front, split, rfl⟩
      rw [List.append_nil] at split
      rw [split]
  exact Safe.bind loop fun _ _ same => same ▸ q

/-! ### Sending and receiving -/

theorem Halted.strand (halted : Halted s c [] s') : Halted s c [.stranded c] s' :=
  { halted with flow := ⟨halted.flow.buffer, halted.flow.line⟩ }

/-- Nothing has happened since then beyond the context itself. -/
structure Since (e₀ e : Engine) : Prop where
  calm : Calm e₀.store e.store
  beside : Beside e₀ e

theorem Since.step {e₁ e₂ : Engine} (since : Since e e₁) (calm : Calm e₁.store e₂.store) (beside : Beside e₁ e₂) : Since e e₂ :=
  ⟨since.calm.trans calm, since.beside.trans beside⟩

theorem Turn.since {e₀ : Engine} (turn : Turn e₀ c) (since : Since e₀ e) : Turn e c := turn.keep since.calm

variable {e₀ : Engine}

/-- The context blocks on a channel that is not there. -/
theorem blockForever_acts (turn : Turn e₀ c) (since : Since e₀ e) : Safe (Admits F) (blockForever c) e (Acts i c e₀) := by
  have now := turn.since since
  have nothing : e.store.waits c = [] := now.linked.wired.nothing now.running.idle
  refine store_bind (Enters.refl (now.linked.entering now.running)).halt ?_
  rintro _ s' ⟨halted, same, _⟩
  refine Acts.blocks (Halted.strand (halted.after turn.linked since.calm)) since.beside.scheduler since.beside.output since.beside.nextId
    (.inr fun x hx => .inl (List.mem_singleton.mp hx)) (fun _ => List.mem_singleton_self _) fun many => ?_
  change 2 ≤ (s'.waits c).length at many
  rw [same, nothing] at many
  cases many

/-- The context blocks on a request. -/
theorem parkRequest_acts (turn : Turn e₀ c) (since : Since e₀ e) (own : r.context = c) (good : (Obj.request r).Good e.store)
    (isChannel : e.store.IsTag r.channel .channel) (blockable : Blockable e.store c r) (mentions : e₀.store.Mentions c r.channel) :
    Safe (Admits F) (parkRequest r) e (Acts i c e₀) := by
  subst own
  have now := turn.since since
  have nothing : e.store.waits r.context = [] := now.linked.wired.nothing now.running.idle
  refine store_bind (Quiet.newRequest now.linked.typed good) ?_
  rintro q s₁ ⟨calm, made⟩
  have later : Turn { e with store := s₁ } r.context := now.keep calm
  have still : Blockable s₁ r.context { r with resume := wrap r.resume } := by
    refine ⟨fun send n capacity => ?_, fun recv => ?_, fun p hp r' hr' => ?_⟩
    · rw [calm.buffer]
      exact blockable.send send n (capacity.shrink isChannel.known calm.grows)
    · rw [calm.buffer]
      exact blockable.recv recv
    · rw [calm.waiters] at hp
      exact blockable.opposite p hp r' (hr'.shrink_waiter now.linked.typed hp calm.grows)
  refine store_bind (park_enters (later.linked.entering later.running) made rfl (isChannel.grow calm.grows) still) ?_
  rintro ⟨_, _⟩ s₂ ⟨rfl, parked, enters⟩
  refine store_bind enters.halt ?_
  rintro _ s' ⟨halted, same, _⟩
  have one : (s'.waits r.context).length = 1 := by
    rw [same, enters.entries, calm.waits, nothing]
    rfl
  refine Acts.blocks (halted.after turn.linked (since.calm.trans calm)) since.beside.scheduler since.beside.output since.beside.nextId
    (.inr fun x hx => ?_) (fun none => ?_) fun many => ?_
  · exact .inr ⟨r.channel, List.mem_singleton.mp hx ▸ rfl, mentions⟩
  · change s'.waits r.context = [] at none
    rw [none] at one
    cases one
  · change 2 ≤ (s'.waits r.context).length at many
    rw [one] at many
    exact absurd many (by decide)

/-- A channel that is popped was an operand. -/
theorem mentions_of_operands {rest : List Ref} (operands : e.store.Operands c rest) (hd : d ∈ rest) : e.store.Mentions c d :=
  ⟨rest, operands, .inl hd⟩

/-- Contexts that go on are ready. -/
theorem wakes_acts {o : Option Ref} {s' : Store} (turn : Turn e₀ c) (since : Since e₀ e)
    (exchanged : Exchanged e.store o.toList events s') (about : About e₀.store c s' events) :
    Safe (Admits F) (do return (← wakeOption o, events)) { e with store := s' } (Acts i c e₀) := by
  have registered := exchanged.registered (turn.since since).linked
  refine Safe.bind (wakeOption_safe (Q := fun p e' => p = .proceed ∧
    e' = { e with store := s', scheduler := { e.scheduler with ready := e.scheduler.ready ++ o.toList } }) registered ⟨rfl, rfl⟩) ?_
  rintro _ e' ⟨rfl, rfl⟩
  exact Acts.runs (by decide) (exchanged.after turn.linked since.calm) (by rw [since.beside.scheduler]) since.beside.output since.beside.nextId about

theorem execSend_acts (turn : Turn e c) (resume : Nat) : Safe (Admits F) (execSend c resume) e (Acts i c e) := by
  refine Safe.bind (Quiet.pop turn.active) ?_
  rintro v e₁ ⟨calm₁, beside₁, hv, ⟨rest₁, before₁, after₁⟩, _⟩
  refine Safe.bind (Quiet.pop (turn.keep calm₁).active) ?_
  rintro d e₂ ⟨calm₂, beside₂, hd, ⟨rest₂, before₂, _⟩, _⟩
  have since : Since e e₂ := ⟨calm₁.trans calm₂, beside₁.trans beside₂⟩
  have now := turn.since since
  have mentions : e.store.Mentions c d := by
    refine mentions_of_operands before₁ (List.mem_append_left _ ?_)
    rw [after₁.unique before₂]
    exact List.mem_append_right _ (List.mem_singleton_self d)
  refine observe_safe (Quiet.expectChannel hd) fun given which => ?_
  cases given with
  | false => exact blockForever_acts turn since
  | true =>
    have isChannel : e₂.store.IsTag d .channel := which.elim (fun no => nomatch no.1) (·.2)
    have hv := hv.grow calm₂.grows
    refine Safe.bind (Quiet.protecting (P := fun x s' => s'.Known x) ?_ ?_) ?_
    · exact (Ideal.Quiet.copy now.linked.typed hv).weaken fun _ _ _ copied => copied.known
    · exact fun _ _ _ same ⟨o, ho⟩ => ⟨o, same ▸ ho⟩
    rintro x e₃ ⟨calm₃, beside₃, known⟩
    have since := since.step calm₃ beside₃
    have now := turn.since since
    have isChannel := isChannel.grow calm₃.grows
    refine store_bind (trySend_safe now.linked isChannel known) ?_
    rintro ⟨outcome, events⟩ s' sent
    cases outcome with
    | delivered woken => exact wakes_acts (o := some woken) turn since sent.1 (.on sent.2 mentions)
    | buffered => exact wakes_acts (o := none) turn since sent.1 (.on sent.2 mentions)
    | wouldBlock =>
      obtain ⟨rfl, clear, full⟩ := sent
      refine parkRequest_acts turn since rfl ?_ isChannel (.sending rfl clear full) mentions
      exact Quiet.sendRequest_good now.active.isContext (.inr isChannel) known

theorem execRecv_acts (turn : Turn e c) (resume : Nat) : Safe (Admits F) (execRecv c resume) e (Acts i c e) := by
  refine Safe.bind (Quiet.pop turn.active) ?_
  rintro d e₁ ⟨calm₁, beside₁, hd, ⟨rest, before, _⟩, _⟩
  have since : Since e e₁ := ⟨calm₁, beside₁⟩
  have now := turn.since since
  have mentions : e.store.Mentions c d := mentions_of_operands before (List.mem_append_right _ (List.mem_singleton_self d))
  refine observe_safe (Quiet.expectChannel hd) fun given which => ?_
  cases given with
  | false => exact blockForever_acts turn since
  | true =>
    have isChannel : e₁.store.IsTag d .channel := which.elim (fun no => nomatch no.1) (·.2)
    refine store_bind (tryRecv_safe now.linked isChannel) ?_
    rintro ⟨outcome, events⟩ s₁ received
    cases outcome with
    | received v woken =>
      obtain ⟨known, exchanged, on⟩ := received
      refine store_bind (expectWoken_safe (exchanged.registered now.linked)) ?_
      rintro _ _ rfl
      refine store_bind (Quiet.pushOperand exchanged.linked.typed (exchanged.running now.running).registered known) ?_
      rintro _ s₂ ⟨calm, _⟩
      exact wakes_acts (e := e₁) turn since (exchanged.calmly calm) (.on on mentions)
    | wouldBlock =>
      obtain ⟨rfl, clear, empty⟩ := received
      refine parkRequest_acts turn since rfl ?_ isChannel (.receiving rfl clear empty) mentions
      exact ⟨now.active.isContext, .inr isChannel, now.linked.typed.nil.known, .inl rfl⟩

/-! ### Wait groups -/

theorem expectArguments_safe {Q : Unit → Engine → Prop} {n : Nat} (q : xs.length = n → Q () e) :
    Safe (Admits F) (expectArguments xs n) e Q := by
  unfold expectArguments
  split
  · exact MachineError.noConfusion
  next same => exact q (Decidable.not_not.mp same)

/-- Contexts are released. -/
theorem released_acts {l : List Ref} {s' : Store} (turn : Turn e₀ c) (since : Since e₀ e) (exchanged : Exchanged e.store l [] s') :
    Safe (Admits F) (wakeAll l) { e with store := s' } fun o e' => Acts i c e₀ (o, []) e' := by
  refine wakeAll_safe (exchanged.registered (turn.since since).linked) ?_
  exact .runs (by decide) (exchanged.after turn.linked since.calm) (by rw [since.beside.scheduler]) since.beside.output since.beside.nextId .none

theorem callMethod_acts {receiver : Ref} (turn : Turn e₀ c) (since : Since e₀ e) (method : String) (known : e.store.Known receiver)
    (arguments : ∀ x ∈ xs, e.store.Known x) (fits : F ∨ (method = "Add" → ∀ v, xs = [v] → e.store.Fits receiver v)) :
    Safe (Admits F) (callMethod c receiver method xs) e fun o e' => Acts i c e₀ (o, []) e' := by
  have now := turn.since since
  obtain ⟨o, ho⟩ := known
  refine observe_safe (Observes.tag ho) fun t same => ?_
  have k : e.store.IsTag receiver t := ⟨o, ho, same.symm⟩
  split
  · refine Safe.bind (expectArguments_safe (Q := fun _ e' => e' = e ∧ xs.length = 1) fun length => ⟨rfl, length⟩) ?_
    rintro _ _ ⟨rfl, one⟩
    obtain ⟨v, rfl⟩ := List.length_eq_one_iff.mp one
    refine observe_safe (Observes.intValue now.linked.typed (arguments v (List.mem_singleton_self v))) ?_
    rintro _ ⟨delta, hv, rfl⟩
    refine store_bind (addToGroup_safe now.linked k (fits.imp id fun fits w queue hg => ?_)) fun l s' exchanged =>
      released_acts turn since exchanged
    exact fits rfl v rfl w queue delta hg hv
  · refine Safe.bind (expectArguments_safe (Q := fun _ e' => e' = e) fun _ => rfl) ?_
    rintro _ _ rfl
    refine store_bind (addToGroup_safe now.linked k (.inr fun w queue _ => ?_)) fun l s' exchanged => released_acts turn since exchanged
    have below : w.toInt64.toInt ≤ Int64.maxValue.toInt := Int64.toInt_le _
    have less : (-1 : Int64).toInt = -1 := rfl
    omega
  · refine Safe.bind (expectArguments_safe (Q := fun _ e' => e' = e) fun _ => rfl) ?_
    rintro _ _ rfl
    refine store_bind (waitFor_safe now.linked now.running k) ?_
    rintro waits s' (⟨rfl, rfl⟩ | ⟨rfl, halted, one⟩)
    · exact .runs (by decide) ((Exchanged.refl now.linked).after turn.linked since.calm) (by simp [since.beside.scheduler]) since.beside.output since.beside.nextId .none
    · refine Acts.blocks (halted.after turn.linked since.calm) since.beside.scheduler since.beside.output since.beside.nextId .none (fun none => ?_) fun many => ?_
      · change s'.waits c = [] at none
        rw [one] at none
        cases none
      · change 2 ≤ (s'.waits c).length at many
        rw [one] at many
        exact absurd many (Nat.not_succ_le_self 1)
  · exact MachineError.noConfusion

theorem execCallMethod_acts (turn : Turn e c) (method : String) (argc : Nat) (room : F ∨ argc * 8 < hostLimit)
    (fits : F ∨ ∀ rest g v, method = "Add" → argc = 1 → e.store.Operands c (rest ++ [g, v]) → e.store.Fits g v) :
    Safe (Admits F) (execCallMethod c method argc) e fun o e' => Acts i c e (o, []) e' := by
  refine Safe.bind (Quiet.popMany turn.active argc room) ?_
  rintro xs e₁ ⟨calm₁, beside₁, known, ⟨length, rest, before, after⟩, others₁⟩
  refine Safe.bind (Quiet.pop (turn.keep calm₁).active) ?_
  rintro receiver e₂ ⟨calm₂, beside₂, hr, ⟨rest', before', after'⟩, others₂⟩
  have since : Since e e₂ := ⟨calm₁.trans calm₂, beside₁.trans beside₂⟩
  refine callMethod_acts turn since method hr (fun x hx => (known x hx).grow calm₂.grows) (fits.imp id fun fits add v one => ?_)
  have operands : e.store.Operands c (rest' ++ [receiver, v]) := by
    cases after.unique before'
    simpa [one] using before
  have others : e.store.OnlyAt c e₂.store := fun q ne => (others₂ q ne).trans (others₁ q ne)
  exact (fits rest' receiver v add (length.symm.trans (congrArg _ one)) operands).onlyAt others (turn.since since).active.isContext

/-- A function is called. -/
theorem enter_quiet {closure : Ref} {returnPc : Nat} (active : Active e.store c) (known : e.store.Known closure)
    (arguments : ∀ x ∈ xs, e.store.Known x) : Quiet F (do
      expect closure .func
      let env ← bindArguments closure xs
      let marker ← newMarker (some returnPc)
      pushReturn c marker
      enterEnvironment c env
      setPc c (← code closure).entry
      return Outcome.proceed) e fun o _ => o = .proceed := by
  refine Quiet.observe (Observes.expect known .func) fun _ k => ?_
  refine Quiet.bind (Quiet.bindArguments active.typed k arguments) fun env e₁ calm₁ isEnv => ?_
  have active₁ := active.keep calm₁
  refine Quiet.bind (Quiet.store (Ideal.Quiet.newMarker active₁.typed _)) fun marker e₂ calm₂ known => ?_
  have active₂ := active₁.keep calm₂
  refine Quiet.bind (Quiet.store (Ideal.Quiet.pushReturn active₂.typed active₂.running.registered known)) fun _ e₃ calm₃ _ => ?_
  have active₃ := active₂.keep calm₃
  have isEnv := isEnv.grow (calm₂.grows.trans calm₃.grows)
  refine Quiet.bind (Quiet.store (Ideal.Quiet.enterEnvironment active₃.typed active₃.running.registered isEnv)) fun _ e₄ calm₄ _ => ?_
  have active₄ := active₃.keep calm₄
  have k := k.grow (calm₁.grows.trans (calm₂.grows.trans (calm₃.grows.trans calm₄.grows)))
  refine Quiet.observe (Observes.code active₄.typed k) fun d _ => ?_
  refine Quiet.bind (Quiet.store (Ideal.Quiet.setPc active₄.typed active₄.running _)) fun _ e₅ calm₅ _ => ?_
  exact Quiet.pure calm₅.typed rfl

/-- An instruction that concerns only its own context. -/
theorem Quiet.acts {n : EngineM Outcome} {P : Outcome → Store → Prop} (turn : Turn e₀ c) (since : Since e₀ e) (f : Quiet F n e P)
    (still : ∀ o s', P o s' → o ≠ .block) : Safe (Admits F) n e fun o e' => Acts i c e₀ (o, []) e' := by
  refine Safe.weaken f fun o e' ⟨calm, beside, p⟩ => ?_
  have all := since.step calm beside
  exact .runs (still o _ p) (.calm turn.linked all.calm) (by simp [all.beside.scheduler]) all.beside.output all.beside.nextId .none

theorem execCall_acts (turn : Turn e c) (returnPc argc : Nat) (room : F ∨ argc * 8 < hostLimit)
    (fits : F ∨ ∀ rest m v g name bs, argc = 1 → e.store.Operands c (rest ++ [m, v]) → e.store.objects[m]? = some (.method g name) →
      e.store.objects[name]? = some (.text bs) → Utf8.decodeLossy bs = "Add" → e.store.Fits g v) :
    Safe (Admits F) (execCall c returnPc argc) e fun o e' => Acts i c e (o, []) e' := by
  refine Safe.bind (Quiet.popMany turn.active argc room) ?_
  rintro xs e₁ ⟨calm₁, beside₁, known, ⟨length, rest, before, after⟩, others₁⟩
  refine Safe.bind (Quiet.pop (turn.keep calm₁).active) ?_
  rintro callee e₂ ⟨calm₂, beside₂, ⟨o, ho⟩, ⟨rest', before', after'⟩, others₂⟩
  have since : Since e e₂ := ⟨calm₁.trans calm₂, beside₁.trans beside₂⟩
  have now := turn.since since
  have known := fun x hx => (known x hx).grow calm₂.grows
  refine observe_safe (Observes.tag ho) fun t same => ?_
  by_cases method : t = .method
  · rw [if_pos method]
    have k : e₂.store.IsTag callee .method := ⟨o, ho, same.symm.trans method⟩
    have isContext := now.active.isContext
    obtain ⟨g, name, hm⟩ := now.linked.typed.canonical k
    obtain ⟨hg, isText⟩ := now.linked.typed.good callee _ hm
    obtain ⟨bs, hb⟩ := now.linked.typed.canonical isText
    have others : e.store.OnlyAt c e₂.store := fun q ne => (others₂ q ne).trans (others₁ q ne)
    refine observe_safe (Observes.look hm rfl) ?_
    rintro _ rfl
    refine observe_safe (Observes.look hm rfl) ?_
    rintro _ rfl
    refine observe_safe (Observes.look hb rfl) ?_
    rintro _ rfl
    refine callMethod_acts turn since _ hg known (fits.imp id fun fits add v one => ?_)
    have operands : e.store.Operands c (rest' ++ [callee, v]) := by
      cases after.unique before'
      simpa [one] using before
    have old {r : Ref} {o : Obj} (other : o.tag ≠ .context) (ho : e₂.store.objects[r]? = some o) : e.store.objects[r]? = some o := by
      by_cases e : r = c
      · subst e
        exact absurd (Store.IsTag.unique ⟨o, ho, rfl⟩ isContext) other
      · exact others r e ▸ ho
    exact (fits rest' callee v g name _ (length.symm.trans (congrArg _ one)) operands (old Tag.noConfusion hm) (old Tag.noConfusion hb) add).onlyAt others isContext
  · rw [if_neg method]
    exact Quiet.acts turn since (enter_quiet now.active ⟨o, ho⟩ known) fun _ _ same => same ▸ (by decide)

end Engine

end FiberMachine.Ideal
