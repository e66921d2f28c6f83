import FiberMachine.Object.WaitGroup
import FiberMachine.Proofs.Compounds
import FiberMachine.Proofs.Graph.Chains
import FiberMachine.Proofs.Graph.Containers

/-!
# Contexts, channels and requests in two heaps

A request protects the context that it is going to let go on, its channel and the frame that a value goes into. So nothing of that is
lost while the value is put where the request wants it, although the stacks of the context may grow on the way.
-/

namespace FiberMachine

/-- The outcome with the context under another name. -/
def SendOutcome.map (f : Addr → Addr) : SendOutcome → SendOutcome
  | .delivered woken => .delivered (f woken)
  | .buffered => .buffered
  | .wouldBlock => .wouldBlock

/-- The blocks that an outcome tells of. -/
def SendOutcome.addresses : SendOutcome → List Addr
  | .delivered woken => [woken]
  | .buffered | .wouldBlock => []

namespace Heap

variable {v v' : View} {h h' k k' : Heap} {a b c d i j n x y : Nat} {t u : Tag} {as : List Addr} {P : Addr → Prop}

namespace Echoes

/-! ### Making them -/

/-- An action that makes an object, with others protected. -/
theorem makeRooted {m m' : HeapM Addr} {bs : List Addr} (g : Twins v h k) (has : ∀ a ∈ as, v.blocks a) (names : bs = as.map v.name)
    (make : ∀ {v h k}, Twins v h k → Echoes v h k m m' fun v' h' a b => Answers t v' h' a b) :
    Spares as v h k (Heap.withRoots as m) (Heap.withRoots bs m') fun v' h' a b => Answers t v' h' a b := by
  subst names
  exact withRoots g has (fun g' => make g') fun _ _ _ _ _ same made => made.arena same

theorem createContext (g : Twins v h k) (q : Answers t v h a b) (pc id : Nat) :
    Echoes v h k (Context.create pc a id) (Context.create pc b id) fun v' h' a b => Answers .context v' h' a b := by
  have ⟨ha, same, _⟩ := q
  subst same
  refine (withRoots (ρ := [a]) (R := fun v' h' a b => Answers .context v' h' a b) g (by simpa using ha) (fun g₀ => ?_)
    fun _ _ _ _ _ same made => made.arena same).echoes
  have root : a ∈ (h.rooting [a]).roots := by
    rw [roots_rooting]
    simp
  have q₀ : Answers t v (h.rooting [a]) a (v.name a) := q.arena sameArena_rooting
  refine (createStack g₀).bind g₀ fun o o' v₁ h₁ k₁ g₁ e₁ operands => ?_
  have q₁ := e₁.shelters.answers (.inl root) q₀
  have root : a ∈ h₁.roots := e₁.roots ▸ root
  refine bind g₁ (makeRooted g₁ (by simpa using operands.blocks) (by simp [operands.name]) createStack) fun r r' v₂ h₂ k₂ g₂ e₂ => ?_
  rintro ⟨kept, returns⟩
  have q₂ := e₂.shelters.answers (.inl root) q₁
  have root : a ∈ h₂.roots := e₂.roots ▸ root
  have operands := kept.answers (.inl (by simp)) operands
  refine bind g₂ (makeRooted g₂ (by simp [operands.blocks, returns.blocks]) (by simp [operands.name, returns.name]) createList)
    fun l l' v₃ h₃ k₃ g₃ e₃ => ?_
  rintro ⟨kept, waits⟩
  obtain ⟨ha, same, -⟩ := e₃.shelters.answers (.inl root) q₂
  have root : a ∈ h₃.roots := e₃.roots ▸ root
  obtain ⟨ho, rfl, io⟩ := kept.answers (.inl (by simp)) operands
  obtain ⟨hr, rfl, ir⟩ := kept.answers (.inl (by simp)) returns
  obtain ⟨hl, rfl, il⟩ := waits
  rw [same]
  refine record (ρ := [o, r, l]) (π := [1, 2, 3, 5]) (n := 7) (ω := contextWords o r l pc a id)
    (χ := contextWords (v₃.name o) (v₃.name r) (v₃.name l) pc (v₃.name a) id) g₃ (by simp [ho, hr, hl]) rfl (by decide) (by decide) ?_ ?_ ?_
  · simp only [contextWords, writes, bind_assoc, pure_bind]
    rfl
  · simp only [contextWords, writes, bind_assoc, pure_bind]
    rfl
  · refine .cons (.number (by decide)) (.cons (.reference (by decide) (.extra (by simp)) ?_) (.cons (.reference (by decide) (.extra (by simp)) ?_)
      (.cons (.reference (by decide) (.root root) ?_) (.cons (.reference (by decide) (.extra (by simp)) ?_) (.cons (.number (by decide)) .nil)))))
    all_goals
      intro u leads
      cases leads
    · exact .inr io
    · exact .inr ir
    · exact .inr il

theorem createChannel (g : Twins v h k) (capacity : Nat) :
    Echoes v h k (Channel.create capacity) (Channel.create capacity) fun v' h' a b => Answers .channel v' h' a b := by
  refine (createQueue g capacity).bind g fun d d' v₁ h₁ k₁ g₁ _ buffer => ?_
  refine bind g₁ (makeRooted g₁ (by simpa using buffer.blocks) (by simp [buffer.name]) createList) fun l l' v₂ h₂ k₂ g₂ _ => ?_
  rintro ⟨kept, waiters⟩
  obtain ⟨hd, rfl, id⟩ := kept.answers (.inl (by simp)) buffer
  obtain ⟨hl, rfl, il⟩ := waiters
  refine record (ρ := [d, l]) (π := [1, 2]) (n := 3) (ω := [(0, UInt64.ofNat capacity), (1, UInt64.ofNat d), (2, UInt64.ofNat l)])
    (χ := [(0, UInt64.ofNat capacity), (1, UInt64.ofNat (v₂.name d)), (2, UInt64.ofNat (v₂.name l))]) g₂ (by simp [hd, hl]) rfl
    (by decide) (by decide) ?_ ?_ ?_
  · simp only [writes, bind_assoc, pure_bind]
    rfl
  · simp only [writes, bind_assoc, pure_bind]
    rfl
  · refine .cons (.number (by decide)) (.cons (.reference (by decide) (.extra (by simp)) ?_) (.cons (.reference (by decide) (.extra (by simp)) ?_) .nil))
    all_goals
      intro u leads
      cases leads
    · exact .inr id
    · exact .inr il

theorem createRequest {q : Request} (g : Twins v h k) (context : Answers .context v h q.context a) (channel : Answers .channel v h q.channel b)
    (value : v.blocks q.value) (frame : v.blocks q.frame) (is : q.frame ≠ unassigned → h.tagAt q.frame = .frame) (env : v.blocks q.environment) :
    Echoes v h k (Request.create q) (Request.create (q.map v.name)) fun v' h' a b => Answers .channelRequest v' h' a b := by
  refine record (ρ := [q.context, q.channel, q.value, q.frame, q.environment]) (π := [0, 1, 4, 5, 6]) (n := 7)
    (ω := [(0, UInt64.ofNat q.context), (1, UInt64.ofNat q.channel), (2, UInt64.ofNat q.resume), (3, q.direction.word),
      (4, UInt64.ofNat q.value), (5, UInt64.ofNat q.frame), (6, UInt64.ofNat q.environment)])
    (χ := [(0, UInt64.ofNat (v.name q.context)), (1, UInt64.ofNat (v.name q.channel)), (2, UInt64.ofNat q.resume), (3, q.direction.word),
      (4, UInt64.ofNat (v.name q.value)), (5, UInt64.ofNat (v.name q.frame)), (6, UInt64.ofNat (v.name q.environment))])
    g (by simp [context.blocks, channel.blocks, value, frame, env]) rfl (by decide) (by decide) ?_ ?_ ?_
  · simp only [Request.create, writes, bind_assoc, pure_bind]
    rfl
  · simp only [Request.create, Request.map, writes, bind_assoc, pure_bind]
    rfl
  · refine .cons (.reference (by decide) (.extra (by simp)) ?_) (.cons (.reference (by decide) (.extra (by simp)) ?_) (.cons (.number (by decide))
      (.cons (.number (by decide)) (.cons (.reference (by decide) (.extra (by simp)) ?_) (.cons (.reference (by decide) (.extra (by simp)) ?_)
        (.cons (.reference (by decide) (.extra (by simp)) ?_) .nil))))))
    all_goals
      intro u leads
      cases leads
    · exact .inr context.tag
    · exact .inr channel.tag
    · exact (em (q.frame = unassigned)).imp_right is

end Echoes

/-! ### What requests and contexts hold -/

namespace Twins

section

variable (g : Twins v h k) (ha : v.blocks a) (tag : h.tagAt a = .channelRequest)
include g ha tag

theorem contextOf_same : Mirrors h k (Request.contextOf a) (Request.contextOf (v.name a)) fun x y =>
    y = v.name x ∧ v.blocks x ∧ x = h.ref a 0 ∧ (x ≠ unassigned → h.tagAt x = .context) :=
  g.readNat_leads ha tag rfl

theorem channelOf_same : Mirrors h k (Request.channelOf a) (Request.channelOf (v.name a)) fun x y =>
    y = v.name x ∧ v.blocks x ∧ x = h.ref a 1 ∧ (x ≠ unassigned → h.tagAt x = .channel) :=
  g.readNat_leads ha tag rfl

theorem resumeOf_same : Mirrors h k (Request.resumeOf a) (Request.resumeOf (v.name a)) fun x y => y = x :=
  (g.readNat_number ha ((numberAt_fields tag rfl).mpr (by decide))).weaken fun _ _ _ done => done.1

theorem directionOf_same : Mirrors h k (Request.directionOf a) (Request.directionOf (v.name a)) fun x y => y = x := by
  refine (g.read_number ha ((numberAt_fields tag rfl).mpr (by decide))).bind fun _ _ _ => ?_
  rintro ⟨rfl, -⟩
  exact .answer rfl

theorem frameOf_same : Mirrors h k (Request.frameOf a) (Request.frameOf (v.name a)) fun x y =>
    y = v.name x ∧ v.blocks x ∧ x = h.ref a 5 ∧ (x ≠ unassigned → h.tagAt x = .frame) :=
  g.readNat_leads ha tag rfl

theorem environmentOf_same : Mirrors h k (Request.environmentOf a) (Request.environmentOf (v.name a)) fun x y =>
    y = v.name x ∧ v.blocks x ∧ x = h.ref a 6 :=
  g.readNat_reference ha ((refersAt_fields tag rfl).mpr (by decide))

end

section

variable (g : Twins v h k) (ha : v.blocks a) (is : a ≠ unassigned → h.tagAt a = .context)
include g ha is

theorem operandStack_same : Mirrors h k (Context.operandStack a) (Context.operandStack (v.name a)) fun x y =>
    y = v.name x ∧ v.blocks x ∧ (x ≠ unassigned → h.tagAt x = .stack) :=
  (g.known is fun tag => g.readNat_leads ha tag rfl).weaken fun _ _ _ done => ⟨done.1.1, done.1.2.1, done.1.2.2.2⟩

theorem returnStack_same : Mirrors h k (Context.returnStack a) (Context.returnStack (v.name a)) fun x y =>
    y = v.name x ∧ v.blocks x ∧ (x ≠ unassigned → h.tagAt x = .stack) :=
  (g.known is fun tag => g.readNat_leads ha tag rfl).weaken fun _ _ _ done => ⟨done.1.1, done.1.2.1, done.1.2.2.2⟩

theorem environment_same : Mirrors h k (Context.environment a) (Context.environment (v.name a)) fun x y => y = v.name x ∧ v.blocks x :=
  (g.known is fun tag => g.readNat_reference ha ((refersAt_fields tag rfl).mpr (by decide))).weaken fun _ _ _ done => ⟨done.1.1, done.1.2.1⟩

theorem waitList_same : Mirrors h k (Context.waitList a) (Context.waitList (v.name a)) fun x y =>
    y = v.name x ∧ v.blocks x ∧ (x ≠ unassigned → h.tagAt x = .list) :=
  (g.known is fun tag => g.readNat_leads ha tag rfl).weaken fun _ _ _ done => ⟨done.1.1, done.1.2.1, done.1.2.2.2⟩

/-- A register of a context that is a number is set. -/
theorem edits_register {w : Word} (self : a ≠ unassigned → P a) (out : i ∉ [1, 2, 3, 5]) :
    Edits P v h k (Heap.write a i w) (Heap.write (v.name a) i w) fun _ _ _ => True := by
  intro x h' run
  have some : a ≠ unassigned := by
    rintro rfl
    have := write_ok (g.lt_capacity g.zero) run
    rw [g.empty] at this
    omega
  exact g.edits_number ha (self some) (is some) (π := [1, 2, 3, 5]) rfl out x h' run

theorem edits_environment (self : a ≠ unassigned → P a) (hb : v.blocks b) :
    Edits P v h k (Context.setEnvironment a b) (Context.setEnvironment (v.name a) (v.name b)) fun _ _ _ => True := by
  intro x h' run
  have some : a ≠ unassigned := by
    rintro rfl
    have := write_ok (g.lt_capacity g.zero) run
    rw [g.empty] at this
    omega
  exact g.edits_reference ha (self some) (is some) (π := [1, 2, 3, 5]) rfl (by decide) hb (fun u leads => by cases leads) (fun no => by cases no)
    (fun no => by cases no) x h' run

end

/-- The list of the requests that wait on a channel that may be missing. -/
theorem waiters_same (g : Twins v h k) (ha : v.blocks a) (is : a ≠ unassigned → h.tagAt a = .channel) :
    Mirrors h k (Channel.waiters a) (Channel.waiters (v.name a)) fun x y =>
      y = v.name x ∧ v.blocks x ∧ x = h.ref a 2 ∧ (x ≠ unassigned → h.tagAt x = .list) :=
  (g.known is fun tag => g.readNat_leads ha tag rfl).weaken fun _ _ _ done => done.1

/-- The same is done to several blocks. -/
theorem edits_each {f f' : Addr → HeapM Unit} {xs : List Addr} (g : Twins v h k)
    (each : ∀ x ∈ xs, ∀ h' k', Twins v h' k' → Edited P v h h' → Edits P v h' k' (f x) (f' (v.name x)) fun _ _ _ => True) :
    Edits P v h k (xs.forM f) ((xs.map v.name).forM f') fun _ _ _ => True := by
  induction xs generalizing h k with
  | nil => exact .answer g trivial
  | cons x xs ih =>
    refine (each x List.mem_cons_self h k g g.edited).bind fun _ _ h' k' g' e _ => ?_
    exact ih g' fun y hy h'' k'' g'' e' => each y (List.mem_cons_of_mem x hy) h'' k'' g'' (e.trans e')

/-- A context withdraws its requests. -/
theorem edits_cancelWaits (g : Twins v h k) (ha : v.blocks a) (is : a ≠ unassigned → h.tagAt a = .context) :
    Edits (fun b => h.tagAt b ≠ .channelRequest) v h k (Channel.cancelWaits a) (Channel.cancelWaits (v.name a)) fun _ _ _ => True := by
  refine .read (g.waitList_same ha is) fun waits _ _ => ?_
  rintro ⟨rfl, hw, iw⟩
  refine .read (g.values_same hw iw) fun xs _ _ => ?_
  rintro ⟨rfl, hxs, list⟩
  refine (g.edits_each fun x hx h' k' g' e => ?_).bind fun _ _ h' k' g' e _ => ?_
  · refine .read (g'.tag_same (hxs x hx)) fun _ tag _ => ?_
    rintro ⟨rfl, known⟩
    by_cases request : tag = .channelRequest
    · rw [if_pos request, if_pos request]
      refine .read (g'.channelOf_same (hxs x hx) (known.symm.trans request)) fun c _ _ => ?_
      rintro ⟨rfl, hc, -, channel⟩
      refine .read (g'.waiters_same hc channel) fun l _ _ => ?_
      rintro ⟨rfl, hl, -, il⟩
      refine ((g'.edits_remove hl il (hxs x hx)).mono fun b hb => ?_).bind fun _ _ _ _ g'' _ _ => .answer g'' trivial
      rw [e.tag b hb]
      exact id
    · rw [if_neg request, if_neg request]
      exact .answer g' trivial
  · refine (g'.edits_clear hw ((e.tag _ hw).trans list)).mono fun b hb => ?_
    rw [e.tag b hb]
    exact id

/-- An item of a frame is replaced. -/
theorem edits_setSlot (g : Twins v h k) (ha : v.blocks a) (tag : h.tagAt a = .frame) (hx : v.blocks x) :
    Edits (fun b => h.tagAt b ≠ .channelRequest) v h k (Scope.setSlot a n x) (Scope.setSlot (v.name a) n (v.name x)) fun _ _ _ => True := by
  have position : Mirrors h k (Sequence.position a (Scope.signed n)) (Sequence.position (v.name a) (Scope.signed n)) fun i j => j = i := by
    refine (g.length_same ha (tag ▸ rfl)).bind fun _ len _ => ?_
    rintro ⟨rfl, -⟩
    refine Mirrors.same ?_
    split <;> rfl
  refine .read position fun _ i _ => ?_
  rintro rfl
  exact g.edits_item ha (by rw [tag]; decide) (tag ▸ rfl) hx

end Twins

namespace Spares

/-! ### Letting a context go on -/

/-- A context enters an environment. -/
theorem enterEnvironment (g : Twins v h k) (root : h.Secure h.roots a) (is : a ≠ unassigned → h.tagAt a = .context) (hb : v.blocks b) :
    Spares [b] v h k (Context.enterEnvironment a b) (Context.enterEnvironment (v.name a) (v.name b)) fun _ _ _ _ => True := by
  have ha : v.blocks a := g.secure g.root root
  refine .read (g.environment_same ha is) fun saved _ _ => ?_
  rintro ⟨rfl, hs⟩
  refine bind g (by simpa using hb) (Echoes.withRoots (ρ := [b]) (R := fun _ _ _ _ => True) (S := fun _ _ _ _ => True) g (by simpa using hb)
    (fun g₀ => ?_) fun _ _ _ _ _ _ _ => trivial) fun _ _ v' h' k' g' same kept has' _ => ?_
  · refine .read (g₀.returnStack_same ha is) fun st _ _ => ?_
    rintro ⟨rfl, hst, ist⟩
    exact (Echoes.pushStackAt g₀ hst ist ⟨hs, rfl, rfl⟩).echoes
  · have secure : h.Secure (h.roots ++ [b]) a := root.mono fun c hc => List.mem_append_left _ hc
    rw [← kept.name a secure, ← kept.name b (.inl (by simp))]
    have is' (some : a ≠ unassigned) : h'.tagAt a = .context := (kept.tag a secure).trans (is some)
    exact .alters g' has' (g'.edits_environment (kept.blocks a secure) is' (fun some => by rw [is' some]; decide) (has' b (by simp)))

section

variable {r : Addr} (g : Twins v h k) (root : r ∈ h.roots) (tag : h.tagAt r = .channelRequest)
include g root tag

/-- A protected request is still the same after an action. -/
theorem request_stays (kept : Shelters (h.roots ++ as) v h v' h') :
    h'.tagAt r = .channelRequest ∧ v'.name r = v.name r ∧ h'.ref r 0 = h.ref r 0 ∧ v'.name (h.ref r 0) = v.name (h.ref r 0) := by
  have root' : r ∈ h.roots ++ as := List.mem_append_left as root
  have same := kept.request r root' tag
  have inside : 0 < h.room r := (g.laidOut (g.root r root)).lt_room (leadsTo_refers (t := .context) (tag ▸ rfl))
  exact ⟨same.tagAt.trans tag, kept.name r (.inl root'), same.ref inside, kept.name _ (secure_field root' tag (by decide))⟩

/-- The context behind a protected request. -/
theorem request_context : h.Secure h.roots (h.ref r 0) ∧ (h.ref r 0 ≠ unassigned → h.tagAt (h.ref r 0) = .context) :=
  ⟨secure_field root tag (by decide), (g.typed r (g.root r root) 0 .context (tag ▸ rfl)).resolve_left⟩

/-- A protected value is put where a protected request wants it. -/
theorem deliver (rx : x ∈ h.roots) :
    Spares [] v h k (Channel.deliver r (h.ref r 0) x) (Channel.deliver (v.name r) (v.name (h.ref r 0)) (v.name x)) fun _ _ _ _ => True := by
  have hr := g.root r root
  have hx := g.root x rx
  have none : ∀ c ∈ ([] : List Addr), v.blocks c := fun _ no => absurd no List.not_mem_nil
  obtain ⟨context, is⟩ := request_context g root tag
  refine .read (g.frameOf_same hr tag) fun target _ _ => ?_
  rintro ⟨rfl, hf, -, frame⟩
  by_cases nil : target = unassigned
  · rw [if_pos nil, if_pos ((g.name_nil hf).mpr nil)]
    refine .read (g.operandStack_same (g.secure g.root context) is) fun st _ _ => ?_
    rintro ⟨rfl, hst, ist⟩
    exact (Echoes.pushStackAt g hst ist ⟨hx, rfl, rfl⟩).mono (by simp)
  · rw [if_neg nil, if_neg (mt (g.name_nil hf).mp nil)]
    refine bind g none (alters g none (g.edits_setSlot (n := 0) hf (frame nil) hx)) fun _ _ v' h' k' g' same kept _ _ => ?_
    have root' : r ∈ h'.roots := same ▸ root
    obtain ⟨tag', name, ref, name'⟩ := request_stays g root tag kept
    rw [← name, ← name', ← ref]
    refine .read (g'.environmentOf_same (g'.root r root') tag') fun env _ _ => ?_
    rintro ⟨rfl, he, -⟩
    obtain ⟨context', is'⟩ := request_context g' root' tag'
    exact (enterEnvironment g' context' is' he).mono (by simp)

/-- The context behind a protected request goes on, with a protected value if there is one. -/
theorem proceed {value : Option Addr} (rv : ∀ x ∈ value, x ∈ h.roots) :
    Spares [] v h k
      (do
        let context ← Request.contextOf r
        if let some value := value then Channel.deliver r context value
        Context.setPc context (← Request.resumeOf r)
        Channel.cancelWaits context
        Context.setBlocked context false
        return context)
      (do
        let context ← Request.contextOf (v.name r)
        if let some value := value.map v.name then Channel.deliver (v.name r) context value
        Context.setPc context (← Request.resumeOf (v.name r))
        Channel.cancelWaits context
        Context.setBlocked context false
        return context) fun v' _ a b => v'.blocks a ∧ b = v'.name a := by
  have none : ∀ c ∈ ([] : List Addr), v.blocks c := fun _ no => absurd no List.not_mem_nil
  refine .read (g.contextOf_same (g.root r root) tag) fun context _ _ => ?_
  rintro ⟨rfl, hc, rfl, is⟩
  have finish (v' : View) (h' k' : Heap) (g' : Twins v' h' k') (root : r ∈ h'.roots) (tag : h'.tagAt r = .channelRequest) :
      Spares [] v' h' k'
        (do
          Context.setPc (h'.ref r 0) (← Request.resumeOf r)
          Channel.cancelWaits (h'.ref r 0)
          Context.setBlocked (h'.ref r 0) false
          return h'.ref r 0)
        (do
          Context.setPc (v'.name (h'.ref r 0)) (← Request.resumeOf (v'.name r))
          Channel.cancelWaits (v'.name (h'.ref r 0))
          Context.setBlocked (v'.name (h'.ref r 0)) false
          return v'.name (h'.ref r 0)) fun v'' _ a b => v''.blocks a ∧ b = v''.name a := by
    obtain ⟨context, is⟩ := request_context g' root tag
    have hc := g'.secure g'.root context
    have self (some : h'.ref r 0 ≠ unassigned) : h'.tagAt (h'.ref r 0) ≠ .channelRequest := by rw [is some]; decide
    refine .read (g'.resumeOf_same (g'.root r root) tag) fun _ pc _ => ?_
    rintro rfl
    have all : Edits (fun b => h'.tagAt b ≠ .channelRequest) v' h' k'
        (Context.setPc (h'.ref r 0) pc >>= fun _ => Channel.cancelWaits (h'.ref r 0) >>= fun _ => Context.setBlocked (h'.ref r 0) false >>= fun _ =>
          Pure.pure (h'.ref r 0))
        (Context.setPc (v'.name (h'.ref r 0)) pc >>= fun _ => Channel.cancelWaits (v'.name (h'.ref r 0)) >>= fun _ =>
          Context.setBlocked (v'.name (h'.ref r 0)) false >>= fun _ => Pure.pure (v'.name (h'.ref r 0)))
        fun _ a b => a = h'.ref r 0 ∧ b = v'.name (h'.ref r 0) := by
      refine (g'.edits_register hc is self (by decide)).bind fun _ _ h₁ k₁ g₁ e₁ _ => ?_
      have is₁ (some : h'.ref r 0 ≠ unassigned) := (e₁.tag _ hc).trans (is some)
      refine ((g₁.edits_cancelWaits hc is₁).mono fun b hb => ?_).bind fun _ _ h₂ k₂ g₂ e₂ _ => ?_
      · rw [e₁.tag b hb]
        exact id
      exact (g₂.edits_register hc (fun some => (e₂.tag _ hc).trans (is₁ some)) self (by decide)).bind fun _ _ _ _ g₃ _ _ => .answer g₃ ⟨rfl, rfl⟩
    refine (edits g' (fun _ no => absurd no List.not_mem_nil) all).weaken ?_
    rintro _ _ _ _ - ⟨rfl, -, rfl, rfl⟩
    exact ⟨hc, rfl⟩
  cases value with
  | none => exact finish v h k g root tag
  | some x =>
    refine bind g none (deliver g root tag (rv x rfl)) fun _ _ v' h' k' g' same kept _ _ => ?_
    obtain ⟨tag', name, ref, name'⟩ := request_stays g root tag kept
    rw [← name, ← name', ← ref]
    exact finish v' h' k' g' (same ▸ root) tag'

end

theorem complete {r : Addr} {y : Option Addr} (g : Twins v h k) (q : Answers .channelRequest v h r a) (rv : ∀ x ∈ y, v.blocks x) :
    Spares [r, y.getD unassigned] v h k (Channel.complete r y) (Channel.complete a (y.map v.name))
      fun v' _ a b => v'.blocks a ∧ b = v'.name a := by
  obtain ⟨hr, rfl, tag⟩ := q
  have has : ∀ c ∈ [r, y.getD unassigned], v.blocks c := by
    cases y with
    | none => simp [hr, g.zero]
    | some x => simp [hr, rv x rfl]
  have names : [v.name r, (y.map v.name).getD unassigned] = [r, y.getD unassigned].map v.name := by
    cases y with
    | none => simp [g.nil]
    | some x => rfl
  unfold Channel.complete
  rw [names]
  refine Echoes.withRoots g has (fun g₀ => ?_) fun _ _ _ _ _ _ done => done
  have root (c : Nat) (hc : c ∈ [r, y.getD unassigned]) : c ∈ (h.rooting [r, y.getD unassigned]).roots := by
    rw [roots_rooting]
    exact List.mem_append_right _ hc
  refine (proceed g₀ (root r (by simp)) tag fun x hx => root x ?_).echoes
  cases hx
  simp

end Spares

/-! ### Sending -/

/-- What waits on a channel are its own requests. -/
def Attended (h : Heap) (a : Addr) : Prop :=
  ∃ rs, Channel.waiting a h = .ok rs ∧ ∀ r ∈ rs, h.tagAt r = .channelRequest ∧ h.ref r Request.channelField = a

theorem Attended.values {l : Nat} (attended : h.Attended a) (run : Channel.waiters a h = .ok l) :
    ∃ rs, LinkedList.values l h = .ok rs ∧ ∀ r ∈ rs, h.tagAt r = .channelRequest ∧ h.ref r Request.channelField = a := by
  obtain ⟨rs, run', good⟩ := attended
  rw [Channel.waiting, HeapReader.run_bind, run] at run'
  exact ⟨rs, run', good⟩

/-- A waiting request is taken. -/
theorem Twins.edits_takeWaiter (g : Twins v h k) (q : Answers .channel v h a b) (attended : h.Attended a) (direction : Direction) :
    Edits (fun b => h.tagAt b ≠ .channelRequest) v h k (Channel.takeWaiter a direction) (Channel.takeWaiter b direction) fun _ r r' =>
      r' = r.map v.name ∧ ∀ x ∈ r, v.blocks x ∧ h.tagAt x = .channelRequest ∧ h.ref x Request.channelField = a := by
  obtain ⟨ha, rfl, tag⟩ := q
  refine .read (g.waiters_same ha fun _ => tag) fun l _ run => ?_
  rintro ⟨rfl, hl, -, list⟩
  obtain ⟨rs, values, good⟩ := attended.values run
  refine (g.edits_takeFirst hl list fun x hx mem => ?_).weaken ?_
  · refine (g.directionOf_same hx (good x (mem rs values)).1).bind fun _ _ _ => ?_
    rintro rfl
    exact .answer rfl
  · rintro h' r r' ⟨rfl, found⟩
    exact ⟨rfl, fun x hx => ⟨(found x hx).1, good x ((found x hx).2 rs values)⟩⟩

namespace Echoes

theorem trySend (g : Twins v h k) (q : Answers .channel v h a b) (r : Answers t v h x y) (attended : h.Attended a) :
    Echoes v h k (Channel.trySend a x) (Channel.trySend b y) fun v' h' o o' =>
      (o' = o.map v'.name ∧ ∀ c ∈ o.addresses, v'.blocks c) ∧ Answers .channel v' h' a b ∧ Answers t v' h' x y := by
  refine (edits g (g.edits_takeWaiter q attended .recv) fun _ _ request out => out request).bind g fun taken _ v' h' k' g' e => ?_
  rintro ⟨rfl, edited, rfl, good⟩
  have q' : Answers .channel v' h' a b := ⟨q.blocks, q.name, (edited.tag a q.blocks).trans q.tag⟩
  have r' : Answers t v' h' x y := ⟨r.blocks, r.name, (edited.tag x r.blocks).trans r.tag⟩
  cases taken with
  | none =>
    have same := q.name
    subst same
    refine read (g'.readNat_leads q'.blocks q'.tag (i := 1) rfl) fun buffer _ _ => ?_
    rintro ⟨rfl, hd, -, queue⟩
    refine (edits g' (g'.edits_tryPushAt hd queue r') fun _ _ request out => out request).bind g' fun _ pushed v'' h'' k'' g'' _ => ?_
    rintro ⟨rfl, edited', rfl⟩
    have ends (o : SendOutcome) (same : o.map v''.name = o) (nothing : o.addresses = []) : Echoes v'' h'' k'' (Pure.pure o) (Pure.pure o)
        fun v' h' o o' => (o' = o.map v'.name ∧ ∀ c ∈ o.addresses, v'.blocks c) ∧ Answers .channel v' h' a (v''.name a) ∧ Answers t v' h' x y :=
      .answer g'' ⟨⟨same.symm, by simp [nothing]⟩, ⟨q.blocks, rfl, (edited'.tag a q.blocks).trans q'.tag⟩,
        ⟨r.blocks, r.name, (edited'.tag x r.blocks).trans r'.tag⟩⟩
    cases pushed with
    | true => exact ends .buffered rfl rfl
    | false => exact ends .wouldBlock rfl rfl
  | some s =>
    obtain ⟨hs, request, channel⟩ := good s rfl
    have kept : Kept h h' s := edited.kept s hs fun out => out request
    have request' := kept.tagAt.trans request
    have channel' : h'.ref s 1 = a := by
      rw [kept.ref ((g.laidOut hs).lt_room (leadsTo_refers (t := .channel) (request ▸ rfl)))]
      exact channel
    have same := r.name
    subst same
    refine bind g' (Spares.complete g' ⟨hs, rfl, request'⟩ (y := some x) fun z hz => by cases hz; exact r.blocks)
      fun c d v'' h'' k'' g'' e' => ?_
    rintro ⟨stays, hc, rfl⟩
    refine .answer g'' ⟨⟨rfl, by simpa [SendOutcome.addresses] using hc⟩, ?_, stays.answers (.inl (by simp)) r'⟩
    refine stays.answers ?_ q'
    rw [← channel']
    exact secure_field (by simp) request' (by decide)

end Echoes

/-! ### Waiting -/

/-- Whether another context waits in the other direction. -/
theorem Twins.opposes_same {rs : List Addr} {direction : Direction} (g : Twins v h k) (hc : v.blocks c)
    (requests : ∀ r ∈ rs, v.blocks r ∧ h.tagAt r = .channelRequest) :
    Mirrors h k (Channel.opposes c direction rs) (Channel.opposes (v.name c) direction (rs.map v.name)) fun p q => q = p := by
  induction rs with
  | nil => exact .answer rfl
  | cons r rs ih =>
    obtain ⟨hr, tag⟩ := requests r List.mem_cons_self
    have rest := ih fun s hs => requests s (List.mem_cons_of_mem r hs)
    rw [List.map_cons]
    unfold Channel.opposes
    refine (g.directionOf_same hr tag).bind fun _ way _ => ?_
    rintro rfl
    by_cases other : way ≠ direction
    · simp only [if_pos other]
      refine (g.contextOf_same hr tag).bind fun d _ _ => ?_
      rintro ⟨rfl, hd, -, -⟩
      by_cases apart : d = c
      · simp only [apart, ne_eq, not_true_eq_false, if_false]
        exact rest
      · have apart' : v.name d ≠ v.name c := fun same => apart (g.injective d c hd hc same)
        simp only [if_pos apart, if_pos apart', ne_eq]
        exact .answer rfl
    · simp only [if_neg other]
      exact rest

namespace Spares

/-- A request waits on its channel. -/
theorem park {r : Addr} (g : Twins v h k) (q : Answers .channelRequest v h r b) (attended : h.Attended (h.ref r 1)) :
    Spares [r] v h k (Channel.park r) (Channel.park b) fun _ _ _ _ => True := by
  have ⟨hr, same, tag⟩ := q
  subst same
  have has : ∀ c ∈ [r], v.blocks c := by simpa using hr
  refine .read (g.channelOf_same hr tag) fun channel _ _ => ?_
  rintro ⟨rfl, hd, rfl, is⟩
  refine .read (g.contextOf_same hr tag) fun context _ _ => ?_
  rintro ⟨rfl, hc, rfl, is'⟩
  refine .read (g.directionOf_same hr tag) fun _ direction _ => ?_
  rintro rfl
  refine .read (g.waiters_same hd is) fun l _ run => ?_
  rintro ⟨rfl, hl, -, list⟩
  obtain ⟨rs, values, good⟩ := attended.values run
  refine .read (g.values_same hl list) fun xs _ run => ?_
  rintro ⟨rfl, hxs, -⟩
  cases values.symm.trans run
  refine .read (g.opposes_same hc fun s hs => ⟨hxs s hs, (good s hs).1⟩) fun _ opposed _ => ?_
  rintro rfl
  cases opposed with
  | true => exact .read (R := fun _ _ => False) (Mirrors.fails rfl) fun _ _ _ no => no.elim
  | false =>
    refine bind g has ((Echoes.pushListAt g hl list q).mono (by simp)) fun _ _ v' h' k' g' same kept has' _ => ?_
    have secure : h.Secure (h.roots ++ [r]) (h.ref r 0) := secure_field (by simp) tag (by decide)
    have is'' (some : h.ref r 0 ≠ unassigned) : h'.tagAt (h.ref r 0) = .context := (kept.tag _ secure).trans (is' some)
    have q' := kept.answers (.inl (by simp)) q
    rw [← kept.name _ secure, ← kept.name r (.inl (by simp))]
    refine .read (g'.waitList_same (kept.blocks _ secure) is'') fun waits _ _ => ?_
    rintro ⟨rfl, hw, iw⟩
    refine Echoes.withRoots (ρ := [r]) (R := fun _ _ _ _ => True) g' has' (fun g₀ => ?_) fun _ _ _ _ _ _ _ => trivial
    exact (Echoes.pushListAt g₀ hw iw ⟨q'.blocks, rfl, q'.tag⟩).echoes

/-- A context waits for a wait group. -/
theorem wait (g : Twins v h k) (q : Answers .waitGroup v h a b) (r : Answers .context v h c d) :
    Spares [a, c] v h k (WaitGroup.wait a c) (WaitGroup.wait b d) fun _ _ p q => q = p := by
  have ⟨ha, same, tag⟩ := q
  have ⟨hc, same', _⟩ := r
  subst same same'
  have has : ∀ x ∈ [a, c], v.blocks x := by simp [ha, hc]
  have counter : Mirrors h k (WaitGroup.counter a) (WaitGroup.counter (v.name a)) fun x y => y = x := by
    refine (g.read_number ha ((numberAt_fields tag rfl).mpr (by decide))).bind fun _ _ _ => ?_
    rintro ⟨rfl, -⟩
    exact .answer rfl
  refine .read counter fun _ count _ => ?_
  rintro rfl
  by_cases zero : count = 0
  · rw [if_pos zero, if_pos zero]
    exact .answer g has rfl
  · rw [if_neg zero, if_neg zero]
    refine .read (g.readNat_leads ha tag (i := 1) rfl) fun waiters _ _ => ?_
    rintro ⟨rfl, hd, -, queue⟩
    refine bind g has (Echoes.withRoots (ρ := [a, c]) (R := fun _ _ _ _ => True) (S := fun _ _ _ _ => True) g has (fun g₀ => ?_)
      fun _ _ _ _ _ _ _ => trivial) fun _ _ v' h' k' g' same kept has' _ => ?_
    · have root (x : Nat) (hx : x ∈ [a, c]) : x ∈ (h.rooting [a, c]).roots := by
        rw [roots_rooting]
        exact List.mem_append_right _ hx
      refine (Echoes.pushQueueAt g₀ hd queue (t := .context) (r.arena sameArena_rooting)).echoes.bind g₀ fun _ _ v₁ h₁ k₁ g₁ e₁ _ => ?_
      have q₁ := e₁.shelters.answers (.inl (root a (by simp))) (q.arena sameArena_rooting)
      have r₁ := e₁.shelters.answers (.inl (root c (by simp))) (r.arena sameArena_rooting)
      rw [r₁.name]
      refine .read (g₁.waitList_same r₁.blocks fun _ => r₁.tag) fun waits _ _ => ?_
      rintro ⟨rfl, hw, iw⟩
      exact (Echoes.pushListAt g₁ hw iw q₁).echoes
    · have r' := kept.answers (.inl (by simp)) r
      rw [r'.name]
      have blocked : Edits (fun b => h'.tagAt b ≠ .channelRequest) v' h' k' (Context.setBlocked c true >>= fun _ => Pure.pure true)
          (Context.setBlocked (v'.name c) true >>= fun _ => Pure.pure true) fun _ p q => q = p := by
        refine (g'.edits_register r'.blocks (fun _ => r'.tag) (fun _ => ?_) (by decide)).bind fun _ _ _ _ g'' _ _ => .answer g'' rfl
        rw [r'.tag]
        decide
      exact (edits g' has' blocked).weaken fun _ _ _ _ _ done => done.2.2

end Spares

end Heap

end FiberMachine
