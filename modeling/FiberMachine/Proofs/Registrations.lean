import FiberMachine.Proofs.Blocking

/-!
# Entries of waiting contexts

A context that waits is entered twice: with what it waits for, and in its own wait-list. The entries agree in every state
of a run, and a context that does not wait is entered nowhere.
-/

namespace FiberMachine

open Ideal Heap

namespace Heap

variable (h : Heap) (c : Addr)

/-- No request of the context waits on a channel. -/
def OffChannels : Prop :=
  ∀ d, h.Holds d .channel → ∃ waiting, Channel.waiting d h = .ok waiting ∧
    ∀ q ∈ waiting, ∃ owner, Request.contextOf q h = .ok owner ∧ owner ≠ c

/-- No wait group is to release the context. -/
def OffGroups : Prop :=
  ∀ g, h.Holds g .waitGroup → ∃ queue, WaitGroup.waiting g h = .ok queue ∧ c ∉ queue

/-- The context waits on channels: with each of its requests as often as it has entered it. -/
structure OnChannels (waits : List Addr) : Prop where
  some : waits ≠ []
  entered : ∀ q ∈ waits, tag q h = .ok .channelRequest ∧ Request.contextOf q h = .ok c ∧
    ∃ d waiting, Request.channelOf q h = .ok d ∧ Channel.waiting d h = .ok waiting ∧ waits.count q = waiting.count q
  listed : ∀ d, h.Holds d .channel → ∃ waiting, Channel.waiting d h = .ok waiting ∧
    ∀ q ∈ waiting, Request.contextOf q h = .ok c → q ∈ waits
  groups : h.OffGroups c

/-- The context waits on a wait group, which is to release it once. -/
structure InGroup (waits : List Addr) : Prop where
  entered : ∃ g queue, waits = [g] ∧ tag g h = .ok .waitGroup ∧ WaitGroup.waiting g h = .ok queue ∧ queue.count c = 1
  channels : h.OffChannels c

end Heap

variable {w : World} {s : Store} {h : Heap} {t : Course} {x : Execution} {c d q g : Ref} {a b : Nat} {l xs : List Ref} {as : List Nat}
  {log : List Event} {code : Array Instruction} {config : Config} {journal : Journal} {history : List Entry}

/-- An address occurs as often as its object. -/
theorem Rep.count_eq (rep : Rep w s h) (homes : List.Forall₂ w.home xs as) (ha : w.home c a) : as.count a = xs.count c := by
  induction homes with
  | nil => rfl
  | @cons y b ys bs hb _ ih =>
    rw [List.count_cons, List.count_cons, ih]
    congr 1
    have same : b = a ↔ y = c := ⟨fun e => rep.unique (e ▸ hb) ha, fun e => rep.single _ _ _ (e ▸ hb) ha⟩
    simp only [beq_iff_eq, same]

/-- A context none of whose requests waits. -/
theorem Rep.offChannels (rep : Rep w s h) (wired : Wired s none) (ha : w.home c a)
    (off : ∀ d, ∀ q ∈ s.waiters d, ∀ r, s.IsRequest q r → r.context ≠ c) : h.OffChannels a := by
  intro b holds
  obtain ⟨d, k, hd, hk⟩ := rep.channel_at holds
  obtain ⟨waiting, read, homes⟩ := rep.waiting_eq hd hk
  refine ⟨waiting, read, fun b hb => ?_⟩
  obtain ⟨q, hq, hb⟩ := related_left homes hb
  rw [← Store.waiters_of hk] at hq
  obtain ⟨r, hr, _⟩ := wired.waiter d q hq
  obtain ⟨owner, answer, ho⟩ := rep.contextOf_eq hb hr
  exact ⟨owner, answer, fun same => off d q hq r hr (rep.unique (same ▸ ho) ha)⟩

/-- A context that no wait group is to release. -/
theorem Rep.offGroups (rep : Rep w s h) (ha : w.home c a) (off : ∀ g, c ∉ s.queue g) : h.OffGroups a := by
  intro b holds
  obtain ⟨g, v, xs, hg, hxs⟩ := rep.group_at holds
  obtain ⟨queue, read, homes⟩ := rep.members_eq hg hxs
  refine ⟨queue, read, fun member => off g ?_⟩
  rw [Store.queue_of hxs]
  exact (rep.mem_iff homes ha).mpr member

/-- A context that waits on channels. -/
theorem Rep.onChannels (rep : Rep w s h) (wired : Wired s none) (ha : w.home c a) (homes : List.Forall₂ w.home (s.waits c) as)
    (some : s.waits c ≠ []) (requests : ∀ q ∈ s.waits c, ∃ r, s.IsRequest q r ∧ r.context = c ∧ q ∈ s.waiters r.channel) :
    h.OnChannels a as where
  some := fun none => some (List.length_eq_zero_iff.mp (homes.length_eq.trans (congrArg List.length none)))
  entered := by
    intro b hb
    obtain ⟨q, hq, hb⟩ := related_left homes hb
    obtain ⟨r, hr, rfl, waits⟩ := requests q hq
    obtain ⟨r', hr', _, _, _, count⟩ := wired.waiter _ q waits
    cases hr.unique hr'
    obtain ⟨owner, answer, ho⟩ := rep.contextOf_eq hb hr
    obtain ⟨d, channel, hd⟩ := rep.channelOf_eq hb hr
    obtain ⟨k, hk⟩ := Store.channel_of_waiter waits
    obtain ⟨waiting, read, listed⟩ := rep.waiting_eq hd hk
    refine ⟨rep.tag_eq hb hr, rep.single _ _ _ ho ha ▸ answer, d, waiting, channel, read, ?_⟩
    rw [rep.count_eq homes hb, rep.count_eq listed hb, ← Store.waiters_of hk, count]
  listed := by
    intro b holds
    obtain ⟨d, k, hd, hk⟩ := rep.channel_at holds
    obtain ⟨waiting, read, listed⟩ := rep.waiting_eq hd hk
    refine ⟨waiting, read, fun b hb own => ?_⟩
    obtain ⟨q, hq, hb⟩ := related_left listed hb
    rw [← Store.waiters_of hk] at hq
    obtain ⟨r, hr, _, _, _, count⟩ := wired.waiter d q hq
    obtain ⟨owner, answer, ho⟩ := rep.contextOf_eq hb hr
    rw [own] at answer
    cases answer
    cases rep.unique ho ha
    exact (rep.mem_iff homes hb).mp (List.count_pos_iff.mp (count ▸ List.count_pos_iff.mpr hq))
  groups := by
    obtain ⟨q, hq⟩ := List.exists_mem_of_ne_nil _ some
    obtain ⟨r, hr, rfl, waits⟩ := requests q hq
    exact rep.offGroups ha (wired.alone waits hr)

/-- A context that waits on a wait group. -/
theorem Rep.inGroup (rep : Rep w s h) (typed : s.Typed) (wired : Wired s none) (ha : w.home c a)
    (homes : List.Forall₂ w.home (s.waits c) as) (same : s.waits c = [g]) (member : c ∈ s.queue g) : h.InGroup a as where
  entered := by
    obtain ⟨v, xs, hxs⟩ := typed.canonical (Store.group_of_member member)
    rw [same] at homes
    obtain _ | ⟨hg, _ | _⟩ := homes
    obtain ⟨queue, read, members⟩ := rep.members_eq hg hxs
    refine ⟨_, queue, rfl, rep.tag_eq hg hxs, read, ?_⟩
    rw [rep.count_eq members ha, ← Store.queue_of hxs]
    exact (wired.member g c member).2.2
  channels := rep.offChannels wired ha fun d q hq r hr own => wired.alone hq hr g (own ▸ member)

/-- Entries are exact. A context that is not blocked waits for nothing and is entered nowhere; a blocked one waits on channels,
or on one wait group, or it is entered nowhere because the instruction that it executed last left it nothing to wait for. -/
theorem Run.waits_exact (run : Run code config journal history x) (holds : x.machine.heap.Holds a .context) :
    ∃ blocked waits, Context.isBlocked a x.machine.heap = .ok blocked ∧ Context.waits a x.machine.heap = .ok waits ∧
      (blocked = false → waits = [] ∧ x.machine.heap.OffChannels a ∧ x.machine.heap.OffGroups a) ∧
      (blocked = true → x.machine.heap.OnChannels a waits ∨ x.machine.heap.InGroup a waits ∨
        waits = [] ∧ x.machine.heap.OffChannels a ∧ x.machine.heap.OffGroups a ∧
          ∃ entry n i, Entry.LastOf entry history a n i ∧ entry.before.machine.heap.Strands a i) := by
  obtain ⟨w, t, log, followed⟩ := run.followed
  have rep := followed.sim.machine.rep
  have typed := followed.steady.linked.typed
  have wired := followed.steady.linked.wired
  obtain ⟨c, f, ha, hf⟩ := rep.context_at holds
  obtain ⟨waits, read, homes⟩ := rep.waits_eq ha hf
  rw [← Store.waits_of hf] at homes
  -- a context that waits for nothing is entered nowhere
  have nowhere (none : t.engine.store.waits c = []) : waits = [] ∧ x.machine.heap.OffChannels a ∧ x.machine.heap.OffGroups a := by
    refine ⟨by rw [none] at homes; cases homes; rfl, rep.offChannels wired ha ?_, rep.offGroups ha ?_⟩
    · rintro d q hq r hr rfl
      obtain ⟨r', hr', _, _, _, count⟩ := wired.waiter d q hq
      cases hr.unique hr'
      rw [none, List.count_nil] at count
      exact absurd (List.count_pos_iff.mpr hq) (by omega)
    · intro g member
      rw [(wired.member g c member).2.1] at none
      cases none
  refine ⟨f.blocked, waits, rep.isBlocked_eq ha hf, read, fun idle => nowhere ?_, fun blocked => ?_⟩
  · refine wired.nothing ?_
    rw [Store.blockedAt_of hf, idle]
    rfl
  · by_cases none : t.engine.store.waits c = []
    · obtain ⟨empty, channels, groups⟩ := nowhere none
      have registered := wired.registered c (by rw [Store.blockedAt_of hf, blocked]; rfl)
      obtain ⟨entry, n, i, last, _, strands⟩ := run.blocked_last ((rep.mem_iff rep.contexts ha).mp registered)
        (blocked ▸ rep.isBlocked_eq ha hf)
      exact .inr (.inr ⟨empty, channels, groups, entry, n, i, last, strands (empty ▸ read)⟩)
    · rcases wired.waits c with requests | ⟨g, same, member⟩
      · exact .inl (rep.onChannels wired ha homes none requests)
      · exact .inr (.inl (rep.inGroup typed wired ha homes same member))

/-- A program that waits. -/
theorem Run.waits_exact_recv : ∃ history x a waits, Run #[.makeChan false, .recv] { heapWords := 128 } (.start none) history x ∧
    x.machine.heap.Holds a .context ∧ waits ≠ [] ∧ (x.machine.heap.OnChannels a waits ∨ x.machine.heap.InGroup a waits) := by
  obtain ⟨history, x, run, found⟩ := Run.of_follow (P := fun _ x => x.machine.heap.finds x.main [] .context &&
      (Context.waits x.main x.machine.heap).toOption.any (!·.isEmpty))
    #[.makeChan false, .recv] { heapWords := 128 } (.start none) 2 (by decide +kernel)
  obtain ⟨found, some⟩ := Bool.and_eq_true_iff.mp found
  obtain ⟨a, here, holds⟩ := finds_holds found
  cases Option.some.inj here
  obtain ⟨blocked, waits, _, read, idle, entered⟩ := run.waits_exact holds
  rw [read] at some
  have some : waits ≠ [] := by
    rintro rfl
    cases some
  refine ⟨history, x, x.main, waits, run, holds, some, ?_⟩
  cases blocked with
  | false => exact absurd (idle rfl).1 some
  | true =>
    rcases entered rfl with channels | group | ⟨none, _⟩
    · exact .inl channels
    · exact .inr group
    · exact absurd none some

end FiberMachine
