import FiberMachine.Proofs.Ideal.Edits
import FiberMachine.Proofs.Ideal.Steering
import FiberMachine.Proofs.Ideal.Turns

/-!
# One instruction

Every instruction keeps the invariants, provided that a select is given only requests of its own context. The
context whose turn it is afterwards runs on, unless it has blocked.
-/

namespace FiberMachine.Ideal

variable {F : Prop} {s s' : Store} {v c d q : Ref} {xs l : List Ref} {events : List Event} {i : Instruction} {n : Nat}

theorem Store.Operands.known {ys : List Ref} (operands : s.Operands c ys) (typed : s.Typed) : ∀ x ∈ ys, s.Known x := by
  obtain ⟨f, ho, rfl⟩ := operands
  exact (typed.good c _ ho).2.1

/-- The program counters stay. -/
theorem Store.Guides.pcAt (steers : s.Steers s') (at_ : s.PcAt c n) : s'.PcAt c n := by
  obtain ⟨f, hf, rfl⟩ := at_
  obtain ⟨g, hg, same⟩ := steers.fibers c f hf
  exact ⟨g, hg, (congrArg Bearing.pc same).symm⟩

namespace Engine

variable {e e₀ e' : Engine}

/-! ### Selecting -/

theorem selectAmong_acts {default? : Option Nat} {cases : Nat} (turn : Turn e₀ c) (since : Since e₀ e) (steers : e₀.store.Steers e.store)
    (requests : ∀ q ∈ xs, ∃ r, e.store.IsRequest q r ∧ r.context = c ∧ e₀.store.Mentions c r.channel) :
    Safe (Admits F) (selectAmong c xs default?) e (Acts (.select cases default?) c e₀) := by
  have now := turn.since since
  have mentions {q : Ref} {r : Request} (hq : q ∈ xs) (hr : e.store.IsRequest q r) : e₀.store.Mentions c r.channel := by
    obtain ⟨r', hr', _, mention⟩ := requests q hq
    exact hr'.unique hr ▸ mention
  refine store_bind (takeReady_safe now.linked now.running fun q hq => ?_) ?_
  · obtain ⟨r, hr, own, _⟩ := requests q hq
    exact ⟨r, hr, own⟩
  rintro ⟨outcome, events⟩ s₁ found
  cases outcome with
  | some woken =>
    obtain ⟨exchanged, q, hq, r, hr, on⟩ := found
    exact wakes_acts turn since exchanged (.on on (mentions hq hr))
  | none =>
    obtain ⟨rfl, blockable⟩ := found
    cases default? with
    | some target =>
      refine store_bind (Quiet.setPc now.linked.typed now.running target) ?_
      rintro _ s' ⟨calm, _⟩
      exact .runs (by decide) (.calm turn.linked (since.calm.trans calm)) (by simp [since.beside.scheduler]) since.beside.output
        since.beside.nextId .none
    | none =>
      refine store_bind (Safe.both (parkAll_safe (now.linked.entering now.running) fun q hq => ?_) (Guiding.parkAll.any _)) ?_
      · obtain ⟨r, hr, own, _⟩ := requests q hq
        obtain ⟨_, channelled, _⟩ := now.linked.typed.good q _ hr
        exact ⟨r, hr, own, fun some => ⟨channelled.resolve_left some, blockable q hq r hr some⟩⟩
      rintro ⟨_, events⟩ s₂ ⟨⟨enters, on⟩, steers₂⟩
      refine store_bind enters.halt ?_
      rintro _ s' ⟨halted, same, counter⟩
      have nothing : e.store.waits c = [] := now.linked.wired.nothing now.running.idle
      have entries : (s'.waits c).length = events.length := by
        rw [same, enters.entries, nothing, List.length_nil, Nat.zero_add]
      have halted := halted.after turn.linked since.calm
      have choosing (_ : 2 ≤ (s'.waits c).length) : (∃ n default?, Instruction.select cases none = .select n default?) ∧
          ∀ n, e₀.store.PcAt c n → s'.blockedAt c = some n :=
        ⟨⟨_, _, rfl⟩, fun n hn => counter n ((steers.after steers₂).pcAt hn)⟩
      by_cases none : events = []
      · have noted : Event.blocking c events = [.stranded c] := if_pos none
        refine noted ▸ Acts.blocks (Halted.strand (none ▸ halted)) since.beside.scheduler since.beside.output since.beside.nextId ?_ ?_ choosing
        · exact .inr fun x hx => .inl (List.mem_singleton.mp hx)
        · exact fun _ => List.mem_singleton_self _
      · have noted : Event.blocking c events = events := if_neg none
        refine noted.symm ▸ Acts.blocks halted since.beside.scheduler since.beside.output since.beside.nextId ?_ ?_ choosing
        · refine .inr fun x hx => .inr ?_
          obtain ⟨q, hq, r, hr, channel⟩ := on x hx
          exact ⟨r.channel, channel, mentions hq hr⟩
        · intro empty
          change s'.waits c = [] at empty
          rw [empty] at entries
          exact absurd (List.length_eq_zero_iff.mp entries.symm) none

/-- The requests that a select finds belong to its context. -/
def Owned (s : Store) (c : Ref) (i : Instruction) : Prop :=
  ∀ n default?, i = .select n default? → ∀ rest xs, xs.length = n → s.Operands c (rest ++ xs) → ∀ q ∈ xs, ∀ r, s.IsRequest q r → r.context = c

/-- The requests `xs` have been taken off the stack, and their cases are to be tried in the order `ys`. -/
structure Offers (e : Engine) (c : Ref) (n : Nat) (xs ys : List Ref) (e₁ : Engine) : Prop where
  since : Since e e₁
  steers : e.store.Steers e₁.store
  others : e.store.OnlyAt c e₁.store
  edits : e.store.Edits ungrouped (· = c) e₁.store
  length : xs.length = n
  operands : ∃ rest, e.store.Operands c (rest ++ xs) ∧ e₁.store.Operands c rest
  perm : ys.Perm xs
  requests : ∀ q ∈ ys, ∃ r, e₁.store.IsRequest q r ∧ r.context = c ∧ e.store.Mentions c r.channel

/-- What a select does before it tries its cases. -/
theorem execSelect_bind {A : Lapse → Prop} {Q : Outcome × List Event → Engine → Prop} {default? : Option Nat} (admits : ∀ l, Admits F l → A l)
    (turn : Turn e c) (room : F ∨ n * 8 < hostLimit) (owned : Owned e.store c (.select n default?))
    (next : ∀ xs ys e₁, Offers e c n xs ys e₁ → Safe A (selectAmong c ys default?) e₁ Q) : Safe A (execSelect c n default?) e Q := by
  refine Safe.bind (Safe.relax (Safe.both (Safe.both (Quiet.popMany turn.active n room) (Guiding.popMany.any _))
    (Editing.popMany (K := ungrouped) (P := (· = c)) rfl e)) admits) ?_
  rintro xs e₁ ⟨⟨⟨calm, beside, known, ⟨length, rest, before, after⟩, others⟩, steers⟩, edits⟩
  have since : Since e e₁ := ⟨calm, beside⟩
  have typed := (turn.since since).linked.typed
  have before_known := before.known turn.linked.typed
  -- every operand that is taken must be a request
  refine Safe.bind (Q := fun _ e' => e' = e₁ ∧ ∀ q ∈ xs, e₁.store.IsTag q .channelRequest) (.relax ?_ admits) ?_
  · refine (Safe.forM (I := fun rest e' => e' = e₁ ∧ ∃ front, xs = front ++ rest ∧ ∀ q ∈ front, e₁.store.IsTag q .channelRequest)
      ⟨rfl, [], rfl, fun _ no => absurd no List.not_mem_nil⟩ ?_).weaken ?_
    · rintro q rest e₁ ⟨rfl, front, split, tags⟩
      refine safe_store (Safe.weaken (Observes.expect (known q (by simp [split])) .channelRequest) ?_)
      rintro _ s ⟨rfl, isRequest⟩
      refine ⟨rfl, front ++ [q], by simp [split], fun p hp => ?_⟩
      rcases List.mem_append.mp hp with old | new
      · exact tags p old
      · exact List.mem_singleton.mp new ▸ isRequest
    · rintro _ e₁ ⟨rfl, front, split, tags⟩
      rw [List.append_nil] at split
      exact ⟨rfl, split ▸ tags⟩
  rintro _ e₁ ⟨rfl, tags⟩
  refine Safe.bind (Q := fun ys e' => (∃ g, e' = { e₁ with generator := g }) ∧ ys.Perm xs) ⟨⟨_, rfl⟩, Generator.shuffle_perm _ _⟩ ?_
  rintro ys _ ⟨⟨g, rfl⟩, perm⟩
  refine next xs ys _ ⟨⟨calm, beside.scheduler, beside.output, beside.nextId⟩, steers, others, edits, length, ⟨rest, before, after⟩, perm, fun q hq => ?_⟩
  have hq := perm.subset hq
  obtain ⟨r, hr⟩ := typed.canonical (tags q hq)
  have hr₀ : e.store.IsRequest q r := Store.IsRequest.shrink hr (before_known q (List.mem_append_right _ hq)) calm.grows
  exact ⟨r, hr, owned n default? rfl rest xs length before q hq r hr₀, rest ++ xs, before, .inr ⟨q, List.mem_append_right _ hq, r, hr₀, rfl⟩⟩

theorem execSelect_acts {default? : Option Nat} (turn : Turn e c) (room : F ∨ n * 8 < hostLimit)
    (owned : Owned e.store c (.select n default?)) : Safe (Admits F) (execSelect c n default?) e (Acts (.select n default?) c e) :=
  execSelect_bind (fun _ => id) turn room owned fun _ _ _ offers => selectAmong_acts turn offers.since offers.steers offers.requests

/-! ### Instructions in general -/

/-- What an instruction does, as far as the other contexts are concerned. -/
structure Turned (i : Instruction) (c : Ref) (e : Engine) (p : Outcome × List Event) (e' : Engine) : Prop where
  linked : Linked e'.store
  grows : e.store.Grows e'.store
  balanced : Balanced e'.store (if p.1 = .block then [] else [c]) e'.scheduler.ready
  scheduler : e'.scheduler = { e.scheduler with ready := e'.scheduler.ready }
  flow : Flow e.store e'.store p.2
  about : About e.store c e'.store p.2
  others : ∀ x, x ≠ c → e'.store.blockedAt x = none ∨
    e'.store.blockedAt x = e.store.blockedAt x ∧ e'.store.waits x = e.store.waits x
  stranded : p.1 = .block → e'.store.waits c = [] → .stranded c ∈ p.2
  choosing : p.1 = .block → 2 ≤ (e'.store.waits c).length → (∃ n default?, i = .select n default?) ∧
    ∀ n, e.store.PcAt c n → e'.store.blockedAt c = some n
  /-- What is printed is known unless an address is displayed. -/
  output : e.output.isSome → e'.output = none → ∃ n newline rest xs, i = .print n newline ∧ xs.length = n ∧
    e.store.Operands c (rest ++ xs) ∧ ∃ x ∈ xs, e.store.ShowsAddress x
  /-- A new context is registered last, with the next number. -/
  spawned : e'.store.contexts = e.store.contexts ∧ e'.nextId = e.nextId ∨
    ∃ d, e'.store.contexts = e.store.contexts ++ [d] ∧ e'.store.HasId d (wrap e.nextId) ∧ e'.nextId = e.nextId + 1

theorem Acts.turned {p : Outcome × List Event} (acts : Acts i c e p e') (linked : Linked e.store)
    (balanced : Balanced e.store [c] e.scheduler.ready) : Turned i c e p e' := by
  have known (same : e'.output = e.output) (given : e.output.isSome) (unknown : e'.output = none) : False := by
    rw [← same, unknown] at given
    cases given
  cases acts with
  | runs still exchanged scheduler output nextId about =>
    refine {
      linked := exchanged.linked, grows := exchanged.proceeds.grows, balanced := ?_, scheduler := ?_, flow := exchanged.flow,
      about := about, others := fun x _ => ?_, stranded := fun no => absurd no still, choosing := fun no => absurd no still,
      output := fun given unknown => (known output given unknown).elim, spawned := .inl ⟨exchanged.proceeds.contexts, nextId⟩ }
    · rw [if_neg still, scheduler]
      exact balanced.exchanged linked exchanged
    · rw [scheduler]
    · rw [exchanged.wakes.blockedAt, exchanged.wakes.waits]
      split
      · exact .inl rfl
      · exact .inr ⟨rfl, rfl⟩
  | blocks halted scheduler output nextId about stranded choosing =>
    refine {
      linked := halted.linked, grows := halted.proceeds.grows, balanced := ?_, scheduler := ?_, flow := halted.flow,
      about := about, others := fun x ne => .inr ⟨halted.blockedAt x ne, halted.waits x ne⟩, stranded := fun _ => stranded,
      choosing := fun _ => choosing, output := fun given unknown => (known output given unknown).elim,
      spawned := .inl ⟨halted.proceeds.contexts, nextId⟩ }
    · rw [if_pos rfl, scheduler]
      exact balanced.halted halted
    · rw [scheduler]

/-- A new channel. -/
theorem execMakeChan_acts (turn : Turn e c) (buffered : Bool) : Safe (Admits F) (do
      let ((), events) ← execMakeChan c buffered
      return (Outcome.proceed, events)) e (Acts i c e) := by
  refine Safe.bind (Quiet.execMakeChan turn.active buffered) ?_
  rintro ⟨_, events⟩ e' ⟨calm, beside, d, rfl, fresh, rest, top⟩
  have exchanged := Exchanged.calm turn.linked calm
  refine .runs (l := []) (by decide) { exchanged with flow := ⟨exchanged.flow.buffer, exchanged.flow.line⟩ } ?_ beside.output beside.nextId ?_
  · simp [beside.scheduler]
  · exact .inl ⟨d, rfl, fresh, mentions_of_operands top (List.mem_append_right _ (List.mem_singleton_self d))⟩

/-- A new context is ready. -/
theorem execGo_turned (turn : Turn e c) (balanced : Balanced e.store [c] e.scheduler.ready) (argc : Nat) (room : F ∨ argc * 8 < hostLimit) :
    Safe (Admits F) (execGo c argc) e fun _ e' => Turned i c e (.proceed, []) e' := by
  refine Safe.bind (Quiet.popMany turn.active argc room) ?_
  rintro xs e₁ ⟨calm₁, beside₁, known, _⟩
  refine Safe.bind (Quiet.pop (turn.keep calm₁).active) ?_
  rintro closure e₂ ⟨calm₂, beside₂, hc, _⟩
  have since : Since e e₂ := ⟨calm₁.trans calm₂, beside₁.trans beside₂⟩
  have now := turn.since since
  refine observe_safe (Observes.expect hc .func) fun _ k => ?_
  refine Safe.bind (Quiet.bindArguments now.linked.typed k fun x hx => (known x hx).grow calm₂.grows) ?_
  rintro env e₃ ⟨calm₃, beside₃, isEnv⟩
  have since := since.step calm₃ beside₃
  have now := turn.since since
  have k := k.grow calm₃.grows
  refine Safe.bind (Q := fun id e' => id = e₃.nextId ∧ e' = { e₃ with nextId := e₃.nextId + 1 }) (.of_ok rfl ⟨rfl, rfl⟩) ?_
  rintro _ _ ⟨rfl, rfl⟩
  refine observe_safe (Observes.code now.linked.typed k) fun f _ => ?_
  refine store_bind (Quiet.newContext now.linked.typed f.entry isEnv e₃.nextId) ?_
  rintro child s₄ ⟨calm₄, hasId, fresh⟩
  have linked₄ := now.linked.calm calm₄
  have all := since.calm.trans calm₄
  have new : child ∉ s₄.contexts := by
    rw [calm₄.contexts]
    intro old
    have known := Store.known_iff.mp (now.linked.typed.contexts child old).known
    exact Nat.lt_irrefl _ (fresh ▸ known)
  have idle : s₄.blockedAt child = none := by
    rw [calm₄.blockedAt, fresh, Store.blockedAt, Store.wiring, List.getElem?_eq_none (Nat.le_refl _)]
    rfl
  have balanced₄ := (balanced.congr all.contexts all.blockedAt).spawn new idle
  have linked₅ := linked₄.register hasId.isTag
  refine Safe.bind (Q := fun _ e' => e' = { e₃ with nextId := e₃.nextId + 1, store := { s₄ with contexts := s₄.contexts ++ [child] } })
    (.of_ok rfl rfl) ?_
  rintro _ _ rfl
  refine store_bind (Quiet.newMarker linked₅.typed none) ?_
  rintro marker s₆ ⟨calm₆, known⟩
  have registered : child ∈ s₆.contexts := by
    rw [calm₆.contexts]
    exact List.mem_append_right _ (List.mem_singleton_self child)
  refine store_bind (Quiet.pushReturn calm₆.typed registered known) ?_
  rintro _ s₇ ⟨calm₇, _⟩
  have after := calm₆.trans calm₇
  refine enqueue_safe (calm₇.contexts ▸ registered) ?_
  have blockedAt (x : Ref) : s₇.blockedAt x = e.store.blockedAt x := (after.blockedAt x).trans (all.blockedAt x)
  have waits (x : Ref) : s₇.waits x = e.store.waits x := (after.waits x).trans (all.waits x)
  have grows : e.store.Grows s₇ := all.grows.trans after.grows
  refine {
    linked := linked₅.calm after, grows := grows, balanced := ?_, scheduler := ?_, flow := ?_, about := .none,
    others := fun x _ => .inr ⟨blockedAt x, waits x⟩, stranded := fun no => (by cases no), choosing := fun no => (by cases no),
    output := fun given unknown => ?_, spawned := .inr ⟨child, ?_, ?_, ?_⟩ }
  · rw [if_neg (by decide), since.beside.scheduler]
    exact balanced₄.congr after.contexts after.blockedAt
  · rw [since.beside.scheduler]
  · exact .quiet turn.linked.typed grows (fun x => (after.buffer x).trans (all.buffer x)) fun x =>
      ((after.waiters x).trans (all.waiters x)) ▸ List.Sublist.refl _
  · change e₃.output = none at unknown
    rw [since.beside.output] at unknown
    rw [unknown] at given
    cases given
  · exact after.contexts.trans (congrArg (· ++ [child]) all.contexts)
  · exact since.beside.nextId ▸ Store.HasId.grow hasId after.grows
  · exact congrArg (· + 1) since.beside.nextId

theorem execPrint_turned (turn : Turn e c) (balanced : Balanced e.store [c] e.scheduler.ready) (depth argc : Nat) (newline : Bool)
    (room : F ∨ argc * 8 < hostLimit)
    (deep : F ∨ ∀ rest xs, xs.length = argc → e.store.Operands c (rest ++ xs) → ∀ x ∈ xs, e.store.Shallow depth x) :
    Safe (Admits F) (execPrint depth c argc newline) e fun _ e' => Turned (.print argc newline) c e (.proceed, []) e' := by
  refine (Quiet.execPrint turn.active depth argc newline room fun rest xs length operands x hx =>
    deep.imp id fun deep => deep rest xs length operands x hx).weaken ?_
  rintro _ e' ⟨calm, scheduler, nextId, printed⟩
  refine {
    linked := turn.linked.calm calm, grows := calm.grows, balanced := ?_, scheduler := by rw [scheduler], flow := .calm turn.linked.typed calm,
    about := .none, others := fun x _ => .inr ⟨calm.blockedAt x, calm.waits x⟩, stranded := fun no => (by cases no),
    choosing := fun no => (by cases no), output := fun given unknown => ?_, spawned := .inl ⟨calm.contexts, nextId⟩ }
  · rw [if_neg (by decide), scheduler]
    exact balanced.congr calm.contexts calm.blockedAt
  · obtain ⟨rest, xs, length, operands, shows⟩ := printed given unknown
    exact ⟨argc, newline, rest, xs, rfl, length, operands, shows⟩

/-- The operands that an instruction takes as a list. -/
def taken : Instruction → Nat
  | .call n | .callMethod _ n | .makeArray n | .append n | .select n _ | .go n | .print n _ => n
  | _ => 0

/-- No counter of a wait group is added to beyond its largest value. -/
structure Adds (s : Store) (c : Ref) (i : Instruction) : Prop where
  direct : ∀ rest g v, i = .callMethod "Add" 1 → s.Operands c (rest ++ [g, v]) → s.Fits g v
  bound : ∀ rest m v g name bs, i = .call 1 → s.Operands c (rest ++ [m, v]) → s.objects[m]? = some (.method g name) →
    s.objects[name]? = some (.text bs) → Utf8.decodeLossy bs = "Add" → s.Fits g v

/-- The instruction breaks no assertion that a program can break, unless `F`. -/
structure Permits (F : Prop) (depth : Nat) (s : Store) (c : Ref) (i : Instruction) : Prop where
  owned : Owned s c i
  room : F ∨ taken i * 8 < hostLimit
  adds : F ∨ Adds s c i
  deep : F ∨ ∀ n newline, i = .print n newline → ∀ rest xs, xs.length = n → s.Operands c (rest ++ xs) → ∀ x ∈ xs, s.Shallow depth x

/-- What is permitted does not depend on the program counter. -/
theorem Permits.onlyAt (permits : Permits F n s c i) (others : s.OnlyAt c s') (k : s.IsTag c .context) (k' : s'.IsTag c .context)
    (operands : ∀ xs, s'.Operands c xs → s.Operands c xs) : Permits F n s' c i := by
  have same {r : Ref} {o : Obj} (other : o.tag ≠ .context) (ho : s'.objects[r]? = some o) : s.objects[r]? = some o := by
    by_cases e : r = c
    · subst e
      exact absurd (Store.IsTag.unique ⟨o, ho, rfl⟩ k') other
    · exact others r e ▸ ho
  refine ⟨?_, permits.room, permits.adds.imp id fun adds => ⟨?_, ?_⟩, permits.deep.imp id fun deep => ?_⟩
  · intro n default? eq rest xs length taken q hq r hr
    exact permits.owned n default? eq rest xs length (operands _ taken) q hq r (same Tag.noConfusion hr)
  · exact fun rest g v eq taken => (adds.direct rest g v eq (operands _ taken)).onlyAt others k'
  · intro rest m v g name bs eq taken hm hb add
    exact (adds.bound rest m v g name bs eq (operands _ taken) (same Tag.noConfusion hm) (same Tag.noConfusion hb) add).onlyAt others k'
  · intro n newline eq rest xs length taken x hx
    exact Store.shallow_onlyAt k others k' (deep n newline eq rest xs length (operands _ taken) x hx)

/-- An instruction that concerns only its own context. -/
theorem Quiet.proceeding {m : EngineM Unit} {P : Unit → Store → Prop} (turn : Turn e c) (f : Quiet F m e P) :
    Safe (Admits F) (proceeding m) e (Acts i c e) := by
  refine Safe.bind (Quiet.acts (i := i) turn ⟨.refl turn.linked.typed, .refl⟩ (P := fun o _ => o = .proceed)
    (Quiet.bind f fun _ _ calm _ => Quiet.pure calm.typed rfl) fun _ _ same => same ▸ (by decide)) ?_
  exact fun o e' acts => acts

theorem proceeding_turned {m : EngineM Unit} (f : Safe (Admits F) m e fun _ e' => Turned i c e (.proceed, []) e') :
    Safe (Admits F) (proceeding m) e (Turned i c e) :=
  Safe.bind (Q := fun o e' => Turned i c e (o, []) e') (Safe.bind f fun _ _ turned => Safe.pure turned)
    fun _ _ turned => Safe.pure turned

theorem quietly_acts {m : EngineM Outcome} (f : Safe (Admits F) m e fun o e' => Acts i c e (o, []) e') :
    Safe (Admits F) (quietly m) e (Acts i c e) :=
  Safe.bind f fun _ _ acts => acts

theorem dispatch_turned {depth pc : Nat} (turn : Turn e c) (balanced : Balanced e.store [c] e.scheduler.ready)
    (permits : Permits F depth e.store c i) : Safe (Admits F) (dispatch depth c pc i) e (Turned i c e) := by
  have acts {m : EngineM (Outcome × List Event)} (f : Safe (Admits F) m e (Acts i c e)) : Safe (Admits F) m e (Turned i c e) :=
    f.weaken fun _ _ acts => Acts.turned acts turn.linked balanced
  have active := turn.active
  have typed := turn.linked.typed
  have since : Since e e := ⟨.refl typed, .refl⟩
  cases i with
  | nop => exact acts (quietly_acts (Quiet.acts turn since (Quiet.pure (P := fun o _ => o = .proceed) typed rfl) fun _ _ same => same ▸ (by decide)))
  | loadInt v => exact acts (Quiet.proceeding turn (Quiet.loadTag active (Ideal.Quiet.newInt typed v)))
  | loadFloat v => exact acts (Quiet.proceeding turn (Quiet.loadTag active (Ideal.Quiet.newFloat typed v)))
  | loadBool v => exact acts (Quiet.proceeding turn (Quiet.loadTag active (Ideal.Quiet.newBool typed v)))
  | loadString s => exact acts (Quiet.proceeding turn (Quiet.loadTag active (Ideal.Quiet.newText typed _)))
  | loadDefault kind =>
    exact acts (Quiet.proceeding turn (Quiet.load active ((Quiet.zeroValue typed kind).weaken fun _ _ _ k => k.1)))
  | loadUnassigned => exact acts (Quiet.proceeding turn (Quiet.push active typed.nil.known))
  | pop =>
    refine acts (Quiet.proceeding (P := fun _ _ => True) turn ?_)
    exact Quiet.bind (Quiet.pop active) fun _ _ calm _ => Quiet.pure calm.typed trivial
  | dup =>
    refine acts (Quiet.proceeding (P := fun _ _ => True) turn ?_)
    exact Quiet.observe (Observes.peekOperand typed active.isContext) fun top known => Quiet.push active known
  | loadVar frame slot => exact acts (Quiet.proceeding turn (Quiet.execLoadVar active frame slot))
  | storeVar frame slot => exact acts (Quiet.proceeding turn (Quiet.execStoreVar active frame slot))
  | binary op => exact acts (Quiet.proceeding turn (Quiet.execBinary active op))
  | unary op => exact acts (Quiet.proceeding turn (Quiet.execUnary active op))
  | jump target => exact acts (Quiet.proceeding turn (Quiet.store (Ideal.Quiet.setPc typed turn.running target)))
  | jumpIfFalse target =>
    refine acts (Quiet.proceeding (P := fun _ _ => True) turn (Quiet.bind (Quiet.popBool active) fun b e₁ calm _ => ?_))
    have turn₁ := turn.keep calm
    cases b with
    | true => exact Quiet.pure calm.typed trivial
    | false => exact Quiet.store (Ideal.Quiet.setPc calm.typed turn₁.running target)
  | jumpIfTrue target =>
    refine acts (Quiet.proceeding (P := fun _ _ => True) turn (Quiet.bind (Quiet.popBool active) fun b e₁ calm _ => ?_))
    have turn₁ := turn.keep calm
    cases b with
    | true => exact Quiet.store (Ideal.Quiet.setPc calm.typed turn₁.running target)
    | false => exact Quiet.pure calm.typed trivial
  | enterScope names => exact acts (Quiet.proceeding turn (Quiet.execEnterScope active names.length))
  | exitScope => exact acts (Quiet.proceeding turn (Quiet.execExitScope active))
  | loadFunc entry params => exact acts (Quiet.proceeding turn (Quiet.execLoadFunc active pc entry params.length))
  | call argc =>
    refine acts (quietly_acts (execCall_acts turn (pc + 1) argc permits.room (permits.adds.imp id fun adds => ?_)))
    exact fun rest m v g name bs one => adds.bound rest m v g name bs (by rw [one])
  | ret => exact acts (quietly_acts (Quiet.acts turn since (Quiet.execReturn active) fun _ _ still => still))
  | loadMethod method => exact acts (Quiet.proceeding turn (Quiet.execLoadMethod active method))
  | callMethod method argc =>
    refine acts (quietly_acts (execCallMethod_acts turn method argc permits.room (permits.adds.imp id fun adds => ?_)))
    exact fun rest g v add one => adds.direct rest g v (by rw [add, one])
  | makeArray n => exact acts (Quiet.proceeding turn (Quiet.execMakeArray active n permits.room))
  | makeSlice elem hasCap => exact acts (Quiet.proceeding turn (Quiet.execMakeSlice active elem hasCap))
  | index => exact acts (Quiet.proceeding turn (Quiet.execIndex active))
  | storeIndex => exact acts (Quiet.proceeding turn (Quiet.execStoreIndex active))
  | len => exact acts (Quiet.proceeding turn (Quiet.execLen active))
  | cap => exact acts (Quiet.proceeding turn (Quiet.execCap active))
  | slice low high => exact acts (Quiet.proceeding turn (Quiet.execSlice active low high))
  | append argc => exact acts (Quiet.proceeding turn (Quiet.execAppend active argc permits.room))
  | makeChan buffered => exact acts (execMakeChan_acts turn buffered)
  | send => exact acts (execSend_acts turn (pc + 1))
  | recv => exact acts (execRecv_acts turn (pc + 1))
  | selectSend target => exact acts (Quiet.proceeding turn (Quiet.execSelectSend active target))
  | selectRecv target name => exact acts (Quiet.proceeding turn (Quiet.execSelectRecv active target))
  | select cases default? => exact acts (execSelect_acts turn permits.room permits.owned)
  | go argc => exact proceeding_turned (execGo_turned turn balanced argc permits.room)
  | print argc newline =>
    exact proceeding_turned (execPrint_turned turn balanced depth argc newline permits.room
      (permits.deep.imp id fun deep => deep argc newline rfl))
  | done =>
    exact acts (quietly_acts (Quiet.acts turn since (Quiet.pure (P := fun o _ => o = .finish) typed rfl) fun _ _ same => same ▸ (by decide)))

/-- Roots do not matter. -/
theorem Turned.release {p : Outcome × List Event} (turned : Turned i c e p e') (mark : Nat) : Turned i c e p (e'.releaseRoots mark) where
  linked := ⟨turned.linked.typed.reroot rfl turned.linked.typed.contexts,
    ⟨turned.linked.wired.idle, turned.linked.wired.waiter, turned.linked.wired.member, turned.linked.wired.waits,
      turned.linked.wired.registered⟩,
    ⟨turned.linked.ducts.room, turned.linked.ducts.full, turned.linked.ducts.empty, turned.linked.ducts.single⟩⟩
  grows := turned.grows
  balanced := ⟨turned.balanced.nodup, turned.balanced.split⟩
  scheduler := turned.scheduler
  flow := ⟨turned.flow.buffer, turned.flow.line⟩
  about := turned.about
  others := turned.others
  stranded := turned.stranded
  choosing := turned.choosing
  output := turned.output
  spawned := turned.spawned

theorem execute_turned {depth pc : Nat} (turn : Turn e c) (balanced : Balanced e.store [c] e.scheduler.ready)
    (permits : Permits F depth e.store c i) : Safe (Admits F) (execute depth c pc i) e (Turned i c e) :=
  execute_safe ((dispatch_turned turn balanced permits).weaken fun _ _ turned => turned.release _)

end Engine

end FiberMachine.Ideal
