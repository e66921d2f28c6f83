import FiberMachine.Proofs.Refinement.Calls

/-!
# Communication

The instructions on channels follow the engine. A select tries its cases in a drawn order, and the draw does not
depend on what the cases are.
-/

namespace FiberMachine

open Ideal

variable {α β : Type} {w w' : World} {e : Engine} {m : Machine} {s : Store} {h : Heap} {r v c : Ref} {a b n : Nat}
  {xs : List Ref} {as : List Nat}

/-! ### Drawing an order -/

theorem Generator.shuffleFrom_map (f : α → β) (xs : Array α) (g : Generator) (i k : Nat) :
    g.shuffleFrom (xs.map f) i k = ((g.shuffleFrom xs i k).1.map f, (g.shuffleFrom xs i k).2) := by
  induction k generalizing xs g i with
  | zero => rfl
  | succ k ih =>
    have swapped (i j : Nat) : (xs.map f).swapIfInBounds i j = (xs.swapIfInBounds i j).map f := by
      unfold Array.swapIfInBounds
      simp only [Array.size_map]
      split
      · split
        · apply Array.ext
          · simp
          · intro l _ _
            simp only [Array.getElem_swap, Array.getElem_map]
            split
            · rfl
            · split <;> rfl
        · rfl
      · rfl
    rw [shuffleFrom, swapped, ih, shuffleFrom]

theorem Generator.shuffle_map (f : α → β) (xs : List α) (g : Generator) :
    g.shuffle (xs.map f) = ((g.shuffle xs).1.map f, (g.shuffle xs).2) := by
  unfold shuffle
  have mapped : (xs.map f).toArray = xs.toArray.map f := by simp
  rw [mapped, shuffleFrom_map, List.length_map]
  simp

/-- Corresponding lists are drawn in corresponding orders. -/
theorem Generator.shuffle_home {P : Ref → Nat → Prop} (g : Generator) (homes : List.Forall₂ P xs as) :
    List.Forall₂ P (g.shuffle xs).1 (g.shuffle as).1 ∧ (g.shuffle xs).2 = (g.shuffle as).2 := by
  have first := g.shuffle_map Prod.fst (xs.zip as)
  have second := g.shuffle_map Prod.snd (xs.zip as)
  rw [List.map_fst_zip homes.length_eq.le] at first
  rw [List.map_snd_zip homes.length_eq.ge] at second
  rw [first, second]
  refine ⟨List.forall₂_map_left_iff.mpr (List.forall₂_map_right_iff.mpr (List.forall₂_same.mpr fun p hp => ?_)), rfl⟩
  exact List.forall₂_zip homes ((g.shuffle_perm _).subset hp)

/-! ### Cases -/

theorem Tracks.expectWoken {x : Option Ref} {m : HeapM α} {n : StoreM β} {Q : World → β → α → Prop}
    (next : (∀ c, x = some c → c ∈ s.contexts) → Tracks w s h m n Q) :
    Tracks w s h m (Engine.expectWoken x >>= fun _ => n) Q := by
  cases x with
  | none => exact next fun _ no => nomatch no
  | some c =>
    refine .expectRegistered fun known => next ?_
    rintro _ ⟨⟩
    exact known

/-- A woken context stays where it is. -/
theorem Held.woken {x : Option Ref} {y : Option Nat} (known : ∀ c, x = some c → c ∈ s.contexts)
    (homes : Option.Rel w.home x y) : Option.Rel (Held w s) x y := by
  cases homes with
  | some ha => exact .some (.contexts ha (known _ rfl))
  | none => exact .none

theorem Held.keepOption {x : Option Ref} {y : Option Nat} {s' : Store} (held : Option.Rel (Held w s) x y)
    (keeps : Keeps w s w' s') : Option.Rel (Held w' s') x y := by
  cases held with
  | some held => exact .some (held.keep keeps)
  | none => exact .none

theorem Held.homeOption {x : Option Ref} {y : Option Nat} (held : Option.Rel (Held w s) x y) : Option.Rel w.home x y := by
  cases held with
  | some held => exact .some held.home
  | none => exact .none

/-- The chosen case goes on, and so does the context that waited on the other side. -/
theorem Tracks.choose {x value : Option Ref} {y value' : Option Nat} {events events' : List Event} (rep : Rep w s h) (hr : Held w s r a)
    (hv : Option.Rel w.home value value') (woken : Option.Rel w.home x y) (notes : w.notes events events') :
    Tracks w s h (do
        let _ ← Channel.complete a value'
        return (some y, events') : HeapM (Option (Option Nat) × List Event)) (do
        Engine.expectWoken x
        let _ ← Ideal.complete r value
        return (some x, events)) (Noted fun w' => Option.Rel (Option.Rel w'.home)) := by
  refine .expectWoken fun known => (Tracks.complete rep hr.home hv).bind ?_
  intro _ s' _ h' w' rep' keeps _
  exact .pure rep' ⟨.some (Held.homeOption (Held.keepOption (Held.woken known woken) keeps)), notes.keep rep rep' keeps.abides⟩

theorem Tracks.tryCase (rep : Rep w s h) (hr : Held w s r a) :
    Tracks w s h (Machine.tryCaseNoting a) (Engine.tryCase r) (Noted fun w' => Option.Rel (Option.Rel w'.home)) := by
  refine .read_bind (.channelOf rep hr.home) fun q b hb => ?_
  by_cases nil : q.channel = unassigned
  · rw [if_pos nil, if_pos ((rep.eq_unassigned hb).mpr nil)]
    exact .pure rep ⟨.none, .nil⟩
  rw [if_neg nil, if_neg fun no => nil ((rep.eq_unassigned hb).mp no)]
  refine .read_bind (.directionOf rep hr.home) ?_
  rintro p _ rfl
  cases p.direction with
  | send =>
    refine .read_bind (.valueOf rep hr.home) fun q' x hx => ?_
    refine (Tracks.trySend rep hb hx).bind ?_
    rintro ⟨_, _⟩ s₁ ⟨_, _⟩ h₁ w₁ rep₁ keeps₁ ⟨sent, notes⟩
    have hr₁ := hr.keep keeps₁
    cases sent with
    | delivered woken => exact .choose rep₁ hr₁ .none (.some woken) notes
    | buffered => exact .choose (x := none) rep₁ hr₁ .none .none notes
    | wouldBlock => exact .pure rep₁ ⟨.none, .nil⟩
  | recv =>
    refine (Tracks.tryRecv rep hb).bind ?_
    rintro ⟨_, _⟩ s₁ ⟨_, _⟩ h₁ w₁ rep₁ keeps₁ ⟨received, notes⟩
    cases received with
    | received value woken => exact .choose rep₁ (hr.keep keeps₁) (.some value) woken notes
    | wouldBlock => exact .pure rep₁ ⟨.none, .nil⟩

theorem Tracks.takeReady (rep : Rep w s h) (held : List.Forall₂ (Held w s) xs as) :
    Tracks w s h (Machine.takeReadyNoting as) (Engine.takeReady xs) (Noted fun w' => Option.Rel (Option.Rel w'.home)) := by
  induction xs generalizing w s h as with
  | nil =>
    cases held
    exact .pure rep ⟨.none, .nil⟩
  | cons r xs ih =>
    obtain ⟨a, as, hr, rest, rfl⟩ := List.forall₂_cons_left_iff.mp held
    refine (Tracks.tryCase rep hr).bind ?_
    rintro ⟨_, _⟩ s₁ ⟨_, _⟩ h₁ w₁ rep₁ keeps₁ ⟨outcome, notes⟩
    cases outcome with
    | some woken => exact .pure rep₁ ⟨.some woken, notes⟩
    | none => exact ih rep₁ (rest.imp fun _ _ held => held.keep keeps₁)

theorem Tracks.parkAll (rep : Rep w s h) (held : List.Forall₂ (Held w s) xs as) :
    Tracks w s h (Machine.parkAllNoting as) (Engine.parkAll xs) (Noted fun _ _ _ => True) := by
  induction xs generalizing w s h as with
  | nil =>
    cases held
    exact .pure rep ⟨trivial, .nil⟩
  | cons r xs ih =>
    obtain ⟨a, as, hr, rest, rfl⟩ := List.forall₂_cons_left_iff.mp held
    refine .read_bind (.channelOf rep hr.home) fun q b hb => ?_
    by_cases nil : q.channel = unassigned
    · have nil' := (rep.eq_unassigned hb).mpr nil
      simp only [nil, nil', ne_eq, not_true_eq_false, if_false]
      refine (ih rep rest).bind ?_
      rintro ⟨_, _⟩ s₁ ⟨_, _⟩ h₁ w₁ rep₁ keeps₁ ⟨_, notes₁⟩
      exact .pure rep₁ ⟨trivial, notes₁⟩
    · have nil' : ¬b = unassigned := fun no => nil ((rep.eq_unassigned hb).mp no)
      simp only [nil, nil', ne_eq, not_false_eq_true, if_true]
      refine (Tracks.park rep hr.home).bind ?_
      rintro ⟨_, _⟩ s₁ ⟨_, _⟩ h₁ w₁ rep₁ keeps₁ ⟨_, notes⟩
      refine (ih rep₁ (rest.imp fun _ _ held => held.keep keeps₁)).bind ?_
      rintro ⟨_, _⟩ s₂ ⟨_, _⟩ h₂ w₂ rep₂ keeps₂ ⟨_, notes₂⟩
      exact .pure rep₂ ⟨trivial, List.rel_append (notes.keep rep₁ rep₂ keeps₂.abides) notes₂⟩

/-- What is noted when a context blocks. -/
theorem World.notes.blocking {events events' : List Event} (notes : w.notes events events') (hc : w.marks c n) :
    w.notes (Event.blocking c events) (Event.blocking n events') := by
  cases notes with
  | nil => exact .cons (.stranded hc) .nil
  | cons same rest => exact .cons same rest

namespace Drives

/-- The object must be a channel or nil. -/
theorem expectChannel {k : Bool → MachineM α} {l : Bool → EngineM β} {R : World → β → α → Prop} (d : Describes w e m)
    (hr : w.home r a) (next : ∀ x, Drives w e m (k x) (l x) R) :
    Drives w e m (liftM (Machine.expectChannel a) >>= k) (liftM (Engine.expectChannel r) >>= l) R := by
  refine read_bind (Q := Eq) d ?_ ?_
  · unfold Machine.expectChannel Engine.expectChannel
    by_cases nil : r = unassigned
    · rw [if_pos nil, if_pos ((d.rep.eq_unassigned hr).mpr nil)]
      exact .pure rfl
    · rw [if_neg nil, if_neg fun no => nil ((d.rep.eq_unassigned hr).mp no)]
      exact (Reads.expect d.rep hr .channel).bind fun _ _ _ => .pure rfl
  · rintro x _ rfl
    exact next x

theorem blockForever (d : Describes w e m) (hc : w.home c n) :
    Drives w e m (Machine.blockForeverNoting n) (Engine.blockForever c) (Noted fun _ => Eq) := by
  refine note d fun _ d₁ => heap_bind d₁ (.setBlocked d₁.rep hc true) fun _ _ _ _ w₂ d₂ keeps _ => ?_
  exact answer d₂ ⟨rfl, .cons (.stranded ((d₁.rep.marks hc).keep d₁.rep d₂.rep keeps.abides)) .nil⟩

theorem parkRequest {q p : Request} (d : Describes w e m) (asks : Asks w q p) (hc : Held w e.store q.context p.context) :
    Drives w e m (Machine.parkRequestNoting p) (Engine.parkRequest q) (Noted fun _ => Eq) := by
  refine heap_bind d (.newRequest d.rep asks) fun r e₁ a m₁ w₁ d₁ keeps₁ hr => ?_
  refine heap_bind d₁ (.park d₁.rep hr) ?_
  rintro ⟨_, _⟩ e₂ ⟨_, _⟩ m₂ w₂ d₂ keeps₂ ⟨_, notes⟩
  refine heap_bind d₂ (.setBlocked d₂.rep ((hc.keep keeps₁).keep keeps₂).home true) fun _ e₃ _ m₃ w₃ d₃ keeps₃ _ => ?_
  exact note d₃ fun _ d₄ => answer d₄ ⟨rfl, notes.keep d₂.rep d₃.rep keeps₃.abides⟩

theorem wakeOption {x : Option Ref} {y : Option Nat} {events events' : List Event} (d : Describes w e m)
    (woken : Option.Rel w.home x y) (notes : w.notes events events') :
    Drives w e m (do return (← Machine.wakeOption y, events')) (do return (← Engine.wakeOption x, events)) (Noted fun _ => Eq) := by
  cases woken with
  | none => exact answer d ⟨rfl, notes⟩
  | @some c n ha =>
    refine Follows.congr (k := Machine.wake n >>= fun _ => pure (.proceed, events'))
      (l := Engine.enqueue c >>= fun _ => pure (.proceed, events)) ?_ ?_ ?_
    · exact wake d ha fun _ _ d₁ _ => answer d₁ ⟨rfl, notes⟩
    · rw [Machine.wakeOption, bind_assoc]
      rfl
    · rw [Engine.wakeOption, bind_assoc]
      rfl

theorem asksSend {channel channel' target : Nat} (hc : w.home c n) (hr : w.home channel channel') (hv : w.home v b)
    (nil : w.home unassigned unassigned) :
    Asks w (Machine.sendRequest c channel v target) (Machine.sendRequest n channel' b target) :=
  ⟨hc, hr, rfl, rfl, hv, nil, nil⟩

theorem asksRecv {channel channel' target env env' : Nat} (hc : w.home c n) (hr : w.home channel channel')
    (hv : w.home v b) (he : w.home env env') (nil : w.home unassigned unassigned) :
    Asks w (Machine.recvRequest c channel target v env) (Machine.recvRequest n channel' target b env') :=
  ⟨hc, hr, rfl, rfl, nil, hv, he⟩

theorem expectWoken {x : Option Ref} {k : MachineM α} {l : Unit → EngineM β} {R : World → β → α → Prop}
    (next : (∀ c, x = some c → c ∈ e.store.contexts) → Drives w e m k (l ()) R) :
    Drives w e m k (liftM (Engine.expectWoken x) >>= l) R := by
  by_cases known : ∀ c, x = some c → c ∈ e.store.contexts
  · refine .ideal (d := ()) ?_ (next known)
    cases x with
    | none => rfl
    | some c => simp only [Engine.run_store, Engine.expectWoken, expectRegistered, known c rfl, if_true]
  · refine .wild (u := e) ?_
    cases x with
    | none => exact (known (by simp)).elim
    | some c =>
      have unknown : c ∉ e.store.contexts := fun hc => known fun _ same => Option.some.inj same ▸ hc
      simp only [run_bind, Engine.run_store, Engine.expectWoken, expectRegistered, unknown, if_false]

theorem execMakeChan (d : Describes w e m) (hc : Held w e.store c n) (buffered : Bool) :
    Drives w e m (Machine.execMakeChanNoting n buffered) (Engine.execMakeChan c buffered) (Noted fun _ _ _ => True) := by
  have made (capacity : Int64) {e : Engine} {m : Machine} {w : World} (d : Describes w e m) (hc : Held w e.store c n) :
      Drives w e m (do
          if capacity < 0 then Machine.abort (.invalidLength .channelCapacity capacity.toInt)
          let channel ← Channel.create capacity.toInt.toNat
          Machine.push n channel
          return ((), [Event.made channel])) (do
          if capacity < 0 then Engine.abort (.invalidLength .channelCapacity capacity.toInt)
          let channel ← newChannel capacity.toInt.toNat
          Engine.push c channel
          return ((), [Event.made channel])) (Noted fun _ _ _ => True) := by
    by_cases negative : capacity < 0
    · simp only [negative, if_true]
      exact aborts_bind d rfl
    · simp only [negative, if_false]
      refine heap_bind d (makes (.newChannel d.rep _)) fun r e₁ a m₁ w₁ d₁ keeps₁ hr => ?_
      refine (push d₁ (hc.keep keeps₁).home hr).bind fun _ e₂ _ m₂ w₂ d₂ keeps₂ _ => ?_
      have d₂ : Describes w₂ e₂ m₂ := d₂
      exact answer d₂ ⟨trivial, .cons (.made ((d₁.rep.marks hr).keep d₁.rep d₂.rep keeps₂.abides)) .nil⟩
  cases buffered with
  | true => exact popInt d hc fun capacity e₁ m₁ w₁ d₁ keeps₁ => made capacity d₁ (hc.keep keeps₁)
  | false => exact made 0 d hc

theorem execSend (d : Describes w e m) (hc : Held w e.store c n) (resume : Nat) :
    Drives w e m (Machine.execSendNoting n resume) (Engine.execSend c resume) (Noted fun _ => Eq) := by
  refine pop d hc fun v e₁ b m₁ w₁ d₁ keeps₁ hv => ?_
  have hc₁ := hc.keep keeps₁
  refine pop d₁ hc₁ fun r e₂ a m₂ w₂ d₂ keeps₂ hr => ?_
  have hc₂ := hc₁.keep keeps₂
  refine expectChannel d₂ hr.home fun isChannel => ?_
  cases isChannel with
  | false => exact blockForever d₂ hc₂.home
  | true =>
    refine protecting d₂ (.copy d₂.rep (hv.keep keeps₂).home) fun x e₃ y m₃ w₃ d₃ keeps₃ hx => ?_
    have hc₃ := hc₂.keep keeps₃
    have hr₃ := hr.keep keeps₃
    refine heap_bind d₃ (.trySend d₃.rep hr₃.home hx.home) ?_
    rintro ⟨_, _⟩ e₄ ⟨_, _⟩ m₄ w₄ d₄ keeps₄ ⟨sent, notes⟩
    cases sent with
    | delivered woken => exact wakeOption d₄ (.some woken) notes
    | buffered => exact answer d₄ ⟨rfl, notes⟩
    | wouldBlock =>
      have hc₄ := hc₃.keep keeps₄
      exact parkRequest d₄ (asksSend hc₄.home (hr₃.keep keeps₄).home (hx.keep keeps₄).home d₄.rep.nil) hc₄

theorem execRecv (d : Describes w e m) (hc : Held w e.store c n) (resume : Nat) :
    Drives w e m (Machine.execRecvNoting n resume) (Engine.execRecv c resume) (Noted fun _ => Eq) := by
  refine pop d hc fun r e₁ a m₁ w₁ d₁ keeps₁ hr => ?_
  have hc₁ := hc.keep keeps₁
  refine expectChannel d₁ hr.home fun isChannel => ?_
  cases isChannel with
  | false => exact blockForever d₁ hc₁.home
  | true =>
    refine heap_bind d₁ (.tryRecv d₁.rep hr.home) ?_
    rintro ⟨_, _⟩ e₂ ⟨_, _⟩ m₂ w₂ d₂ keeps₂ ⟨received, notes⟩
    have hc₂ := hc₁.keep keeps₂
    cases received with
    | received value woken =>
      refine expectWoken fun known => ?_
      refine (push d₂ hc₂.home value).bind fun _ e₃ _ m₃ w₃ d₃ keeps₃ _ => ?_
      have d₃ : Describes w₃ e₃ m₃ := d₃
      exact wakeOption d₃ (Held.homeOption (Held.keepOption (Held.woken known woken) keeps₃))
        (notes.keep d₂.rep d₃.rep keeps₃.abides)
    | wouldBlock =>
      exact parkRequest d₂ (asksRecv hc₂.home (hr.keep keeps₂).home d₂.rep.nil d₂.rep.nil d₂.rep.nil) hc₂

theorem execSelectSend (d : Describes w e m) (hc : Held w e.store c n) (target : Nat) :
    Drives w e m (Machine.execSelectSend n target) (Engine.execSelectSend c target) fun _ _ _ => True := by
  refine pop d hc fun v e₁ b m₁ w₁ d₁ keeps₁ hv => ?_
  have hc₁ := hc.keep keeps₁
  refine pop d₁ hc₁ fun r e₂ a m₂ w₂ d₂ keeps₂ hr => ?_
  have hc₂ := hc₁.keep keeps₂
  refine expectChannel d₂ hr.home fun _ => ?_
  refine protecting d₂ (.copy d₂.rep (hv.keep keeps₂).home) fun x e₃ y m₃ w₃ d₃ keeps₃ hx => ?_
  have hc₃ := hc₂.keep keeps₃
  refine heap_bind d₃ (.newRequest d₃.rep (asksSend hc₃.home (hr.keep keeps₃).home hx.home d₃.rep.nil)) ?_
  intro q e₄ z m₄ w₄ d₄ keeps₄ hq
  exact push d₄ (hc₃.keep keeps₄).home hq

theorem openCase (d : Describes w e m) (hc : Held w e.store c n) (pc target : Nat) :
    Drives w e m (Machine.openCase n pc target) (Engine.openCase c target) fun w' r a => w'.home r a := by
  refine pop d hc fun r e₁ a m₁ w₁ d₁ keeps₁ hr => ?_
  have hc₁ := hc.keep keeps₁
  refine expectChannel d₁ hr.home fun _ => ?_
  refine protecting d₁ (makes (.newSequence d₁.rep rfl 1)) fun frame e₂ x m₂ w₂ d₂ keeps₂ hf => ?_
  have hc₂ := hc₁.keep keeps₂
  refine read_bind d₂ (.environment d₂.rep hc₂.home) fun f env henv => ?_
  refine protecting d₂ (makes (.extend d₂.rep henv hf.home)) fun scope e₃ y m₃ w₃ d₃ keeps₃ hs => ?_
  have hc₃ := hc₂.keep keeps₃
  have hf₃ := hf.keep keeps₃
  refine noteOrigin d₃ hf₃.home fun m₃ d₃ => ?_
  have hr₃ := (hr.keep keeps₂).keep keeps₃
  refine heap_bind d₃ (.newRequest d₃.rep (asksRecv hc₃.home hr₃.home hf₃.home hs.home d₃.rep.nil)) ?_
  intro q e₄ z m₄ w₄ d₄ keeps₄ hq
  have hf₄ := hf₃.keep keeps₄
  refine heap_bind d₄ (.pushOperand d₄.rep (hc₃.keep keeps₄).home hq) fun _ e₅ _ m₅ w₅ d₅ keeps₅ _ => ?_
  exact answer d₅ (hf₄.keep keeps₅).home

theorem execSelectRecv (d : Describes w e m) (hc : Held w e.store c n) (pc target : Nat) :
    Drives w e m (Machine.execSelectRecv n pc target) (Engine.execSelectRecv c target) fun _ _ _ => True := by
  rw [Machine.execSelectRecv_eq, Engine.execSelectRecv_eq]
  exact (openCase d hc pc target).bind fun _ _ _ _ _ d' _ _ => answer d' trivial

theorem expectRequests {k : Unit → MachineM α} {l : Unit → EngineM β} {R : World → β → α → Prop} (d : Describes w e m)
    (homes : List.Forall₂ w.home xs as) (next : Drives w e m (k ()) (l ()) R) :
    Drives w e m ((as.forM fun a => (Heap.expect a .channelRequest : MachineM Unit)) >>= k)
      ((xs.forM fun r => (expect r .channelRequest : EngineM Unit)) >>= l) R := by
  induction homes with
  | nil => exact next
  | cons hx _ ih =>
    refine Follows.congr (k := liftM (Heap.expect _ .channelRequest) >>= fun _ => _)
      (l := liftM (expect _ .channelRequest) >>= fun _ => _) (read_bind d (.expect d.rep hx _) fun _ _ _ => ih) ?_ ?_
    all_goals rw [List.forM, bind_assoc]

theorem shuffled {k : List Nat → MachineM α} {l : List Ref → EngineM β} {R : World → β → α → Prop} (d : Describes w e m)
    (held : List.Forall₂ (Held w e.store) xs as)
    (next : ∀ ys e' bs m', Describes w e' m' → Keeps w e.store w e'.store → List.Forall₂ (Held w e'.store) ys bs →
      Drives w e' m' (k bs) (l ys) R) :
    Drives w e m (Machine.shuffled as >>= k) (Engine.shuffled xs >>= l) R := by
  obtain ⟨drawn, same⟩ := e.generator.shuffle_home held
  refine Follows.congr (k := fun _ => k (m.generator.shuffle as).1 { m with generator := (m.generator.shuffle as).2 })
    (l := fun _ => l (e.generator.shuffle xs).1 { e with generator := (e.generator.shuffle xs).2 }) ?_ rfl rfl
  rw [d.generator]
  have d' : Describes w { e with generator := (e.generator.shuffle xs).2 }
      { m with generator := (e.generator.shuffle as).2 } := { d with generator := same.symm }
  exact next _ _ _ _ d' .refl drawn

theorem selectAmong (d : Describes w e m) (hc : Held w e.store c n) (held : List.Forall₂ (Held w e.store) xs as) (default? : Option Nat) :
    Drives w e m (Machine.selectAmongNoting n as default?) (Engine.selectAmong c xs default?) (Noted fun _ => Eq) := by
  refine heap_bind d (.takeReady d.rep held) ?_
  rintro ⟨x, _⟩ e₁ ⟨y, _⟩ m₁ w₁ d₁ keeps₁ ⟨outcome, notes⟩
  have hc₁ := hc.keep keeps₁
  cases outcome with
  | some woken => exact wakeOption d₁ woken notes
  | none =>
    cases default? with
    | some target => exact heap_bind d₁ (.setPc d₁.rep hc₁.home target) fun _ _ _ _ _ d₂ _ _ => answer d₂ ⟨rfl, .nil⟩
    | none =>
      refine heap_bind d₁ (.parkAll d₁.rep (held.imp fun _ _ held => held.keep keeps₁)) ?_
      rintro ⟨_, _⟩ e₂ ⟨_, _⟩ m₂ w₂ d₂ keeps₂ ⟨_, notes⟩
      have hc₂ := hc₁.keep keeps₂
      refine heap_bind d₂ (.setBlocked d₂.rep hc₂.home true) fun _ _ _ _ _ d₃ keeps₃ _ => ?_
      exact note d₃ fun _ d₄ => answer d₄ ⟨rfl, (notes.blocking (d₂.rep.marks hc₂.home)).keep d₂.rep d₃.rep keeps₃.abides⟩

theorem execSelect (d : Describes w e m) (hc : Held w e.store c n) (cases : Nat) (default? : Option Nat) :
    Drives w e m (Machine.execSelectNoting n cases default?) (Engine.execSelect c cases default?) (Noted fun _ => Eq) := by
  refine popMany cases d hc fun xs e₁ as m₁ w₁ d₁ keeps₁ held₁ => ?_
  refine expectRequests d₁ (held₁.imp fun _ _ held => held.home) ?_
  exact shuffled d₁ held₁ fun ys e₂ bs m₂ d₂ keeps₂ held₂ => selectAmong d₂ ((hc.keep keeps₁).keep keeps₂) held₂ default?

end Drives

end FiberMachine
