import FiberMachine.Object.WaitGroup
import FiberMachine.Proofs.Lists
import FiberMachine.Proofs.Queues
import FiberMachine.Proofs.Stacks

/-!
# Making contexts, channels and wait groups

These objects are made of several blocks, each allocated with those before it protected. Whatever the
collector does on the way, the blocks are all new and all there in the end.
-/

namespace FiberMachine

/-- The request with its objects under other names. -/
def Request.map (f : Addr → Addr) (q : Request) : Request :=
  { q with
    context := f q.context
    channel := f q.channel
    value := f q.value
    frame := f q.frame
    environment := f q.environment }

namespace Heap

variable {h h' h'' : Heap} {a b d n : Nat} {t u : Tag} {m : Nat} {rs ss N M : List Nat} {L : Nat → Prop}

theorem Is.ne (b : h.Is a t n) (c : h.Is d u m) (other : t ≠ u) : a ≠ d := by
  rintro rfl
  exact other (b.tag.symm.trans c.tag)

/-! ### One block after another -/

/-- An action that makes blocks, with some addresses protected. -/
theorem Tidy.rooted {m : HeapM Nat} {X : Nat → List Nat → Heap → Prop} (tidy : h.Tidy)
    (good : ∀ r ∈ rs, h.Allocated r)
    (made : NoMemory m (h.rooting rs) ∨ ∃ a N h', m (h.rooting rs) = .ok a h' ∧
      Evolves (h.rooting rs) ((h.rooting rs).Live []) h' (fun _ => False) N ∧ X a N h')
    (same : ∀ a N h' h'', h'.SameArena h'' → X a N h' → X a N h'') :
    NoMemory (withRoots rs m) h ∨ ∃ a N h', withRoots rs m h = .ok a h' ∧
      Evolves h (h.Live rs) h' (fun _ => False) N ∧ X a N h' := by
  rcases made with full | ⟨a, N, h', run, e, hx⟩
  · exact .inl (withRoots_noMemory full)
  · right
    have e := e.weaken (fun b hb => (live_rooting tidy good).mpr hb) (fun _ _ no => no) fun _ hb => hb
    obtain ⟨h'', run, arena, -, e⟩ := withRoots_ok run e
    exact ⟨a, N, h'', run, e, same _ _ _ _ arena hx⟩

theorem IsStack.sameArena {k : Heap} {xs : List Nat} (same : h.SameArena k) (s : h.IsStack a d xs) : k.IsStack a d xs :=
  s.kept (same.kept s.is.allocated) (same.kept s.allocated)

theorem Tidy.stackRooted (tidy : h.Tidy) (good : ∀ r ∈ rs, h.Allocated r) :
    NoMemory (withRoots rs Stack.create) h ∨ ∃ a d h', withRoots rs Stack.create h = .ok a h' ∧
      Evolves h (h.Live rs) h' (fun _ => False) [d, a] ∧ h'.IsStack a d [] := by
  have made := tidy.rooted (m := Stack.create) (X := fun a N h' => ∃ d, N = [d, a] ∧ h'.IsStack a d []) good ?_ ?_
  · rcases made with full | ⟨a, _, h', run, e, d, rfl, is⟩
    · exact .inl full
    · exact .inr ⟨a, d, h', run, e, is⟩
  · rcases (tidy.rooting good).createStack with full | ⟨a, d, h', run, e, is⟩
    · exact .inl full
    · exact .inr ⟨a, [d, a], h', run, e, d, rfl, is⟩
  · rintro a _ h' h'' same ⟨d, rfl, is⟩
    exact ⟨d, rfl, is.sameArena same⟩

theorem Tidy.listRooted (tidy : h.Tidy) (good : ∀ r ∈ rs, h.Allocated r) :
    NoMemory (withRoots rs LinkedList.create) h ∨ ∃ a h', withRoots rs LinkedList.create h = .ok a h' ∧
      Evolves h (h.Live rs) h' (fun _ => False) [a] ∧ h'.IsList a [] [] := by
  rcases tidy.allocateRooted good (t := .list) (n := 3) (Tag.fits_fields rfl (by decide)) with full | ⟨a, h', run, f⟩
  · exact .inl full
  · exact .inr ⟨a, h', run, f.evolves, .of_fresh f⟩

/-- New blocks after others, which are still there. -/
theorem Evolves.step (e : Evolves h L h' (fun _ => False) N) (f : Evolves h' (h'.Live rs) h'' (fun _ => False) M)
    (old : ∀ a, L a → h'.Live rs a) (new : ∀ a ∈ N, h'.Live rs a) : Evolves h L h'' (fun _ => False) (N ++ M) :=
  (e.trans f old new).weaken (fun _ hb => hb) (fun _ _ no => no.elim id id) fun _ hb => hb

/-! ### Contexts -/

/-- What a new context consists of. -/
structure NewContext (h' : Heap) (a o od r rd l : Nat) (pc env number : Nat) : Prop where
  is : h'.Is a .context 7
  pc : h'.ref a Context.pcField = (UInt64.ofNat pc).toNat
  operandsAt : h'.ref a Context.operandsField = o
  returnsAt : h'.ref a Context.returnsField = r
  environment : h'.ref a Context.environmentField = env
  blocked : h'.cell a Context.blockedField = 0
  waitsAt : h'.ref a Context.waitsField = l
  id : h'.ref a Context.idField = (UInt64.ofNat number).toNat
  operands : h'.IsStack o od []
  returns : h'.IsStack r rd []
  waits : h'.IsList l [] []

/-- The payload words of a new context. -/
def contextWords (o r l pc env number : Nat) : List (Nat × Word) :=
  [(0, UInt64.ofNat pc), (1, UInt64.ofNat o), (2, UInt64.ofNat r), (3, UInt64.ofNat env), (5, UInt64.ofNat l),
    (6, UInt64.ofNat number)]

theorem Tidy.assembleContext {env : Nat} (tidy : h.Tidy) (henv : env ∈ h.roots) (pc number : Nat) {m : HeapM Nat}
    (eq : m = Stack.create >>= fun o => withRoots [o] Stack.create >>= fun r => withRoots [o, r] LinkedList.create >>=
      fun l => withRoots [o, r, l] (Heap.allocateTagged .context 7) >>= fun a =>
        writes a (contextWords o r l pc env number) >>= fun _ => pure a) :
    NoMemory m h ∨ ∃ a o od r rd l h', m h = .ok a h' ∧
      Evolves h (h.Live []) h' (fun _ => False) [a, o, od, r, rd, l] ∧
      [a, o, od, r, rd, l].Nodup ∧ h'.NewContext a o od r rd l pc env number := by
  subst eq
  rcases tidy.createStack with full | ⟨o, od, h₁, run₁, e₁, operands⟩
  · exact .inl (full.bind _)
  have good₁ : ∀ x ∈ [o], h₁.Allocated x := by simpa using operands.is.allocated
  rcases e₁.tidy.stackRooted good₁ with full | ⟨r, rd, h₂, run₂, e₂, returns⟩
  · exact .inl (.after run₁ (full.bind _))
  have lo₁ : h₁.Live [o] o := .extra (by simp)
  have lod₁ : h₁.Live [o] od := lo₁.child (operands.child e₁.tidy)
  have operands₂ := operands.kept (e₂.kept o lo₁ id) (e₂.kept od lod₁ id)
  have good₂ : ∀ x ∈ [o, r], h₂.Allocated x := by simp [operands₂.is.allocated, returns.is.allocated]
  rcases e₂.tidy.listRooted good₂ with full | ⟨l, h₃, run₃, e₃, waits⟩
  · exact .inl (.after run₁ (.after run₂ (full.bind _)))
  have lo₂ : h₂.Live [o, r] o := .extra (by simp)
  have lod₂ := lo₂.child (operands₂.child e₂.tidy)
  have lr₂ : h₂.Live [o, r] r := .extra (by simp)
  have lrd₂ := lr₂.child (returns.child e₂.tidy)
  have operands₃ := operands₂.kept (e₃.kept o lo₂ id) (e₃.kept od lod₂ id)
  have returns₃ := returns.kept (e₃.kept r lr₂ id) (e₃.kept rd lrd₂ id)
  have good₃ : ∀ x ∈ [o, r, l], h₃.Allocated x := by
    simp [operands₃.is.allocated, returns₃.is.allocated, waits.is.allocated]
  have lo₃ : h₃.Live [o, r, l] o := .extra (by simp)
  have lod₃ := lo₃.child (operands₃.child e₃.tidy)
  have lr₃ : h₃.Live [o, r, l] r := .extra (by simp)
  have lrd₃ := lr₃.child (returns₃.child e₃.tidy)
  have ll₃ : h₃.Live [o, r, l] l := .extra (by simp)
  have roots : h₃.roots = h.roots := e₃.roots.trans (e₂.roots.trans e₁.roots)
  have small (x : Nat) (hx : h₃.Allocated x) : (UInt64.ofNat x).toNat = x := e₃.tidy.sound.toNat_ofNat hx
  have henv₃ := e₃.tidy.root (roots.symm ▸ henv)
  have fields : ∀ p ∈ contextWords o r l pc env number, p.1 < 7 ∧ (p.1 ∈ [1, 2, 3, 5] → h₃.Live [o, r, l] p.2.toNat) := by
    simp only [contextWords, List.forall_mem_cons, small _ operands₃.is.allocated, small _ returns₃.is.allocated,
      small _ waits.is.allocated, small _ henv₃]
    simp [lo₃, lr₃, ll₃, show h₃.Live [o, r, l] env from Live.root (roots.symm ▸ henv)]
  rcases make_live (t := .context) (π := [1, 2, 3, 5]) rfl
    (e₃.tidy.allocateRooted good₃ (t := .context) (n := 7) (Tag.fits_fields rfl (by decide))) fields with full | ⟨a, h₄, run₄, f⟩
  · exact .inl (.after run₁ (.after run₂ (.after run₃ full)))
  right
  have cell (i : Nat) (hi : i < 7) : h₄.cell a i = overwrite (fun _ => 0) (contextWords o r l pc env number) i := f.cells i hi
  refine ⟨a, o, od, r, rd, l, h₄, (run_after run₁ _).trans ((run_after run₂ _).trans ((run_after run₃ _).trans run₄)), ?_, ?_, ?_⟩
  · have live₁ (x : Nat) (hx : h.Live [] x) : h₁.Live [o] x := e₁.live tidy (by simp) (fun _ _ no => no) (by simp) hx
    have live₂ (x : Nat) (hx : h₁.Live [o] x) : h₂.Live [o, r] x :=
      e₂.live e₁.tidy good₁ (fun _ _ no => no) (by simpa using lo₂) hx
    have live₃ (x : Nat) (hx : h₂.Live [o, r] x) : h₃.Live [o, r, l] x :=
      e₃.live e₂.tidy good₂ (fun _ _ no => no) (by simpa using ⟨lo₃, lr₃⟩) hx
    have two := e₁.step e₂ live₁ (by simpa using ⟨lod₁, lo₁⟩)
    have three := two.step e₃ (fun x hx => live₂ x (live₁ x hx)) (by simpa using ⟨lod₂, lo₂, lrd₂, lr₂⟩)
    have four := three.step f.evolves (fun x hx => live₃ x (live₂ x (live₁ x hx)))
      (by simpa using ⟨lod₃, lo₃, lrd₃, lr₃, ll₃⟩)
    refine four.weaken (fun _ hb => hb) (fun _ _ no => no) ?_
    intro x hx
    simp only [List.mem_cons, List.not_mem_nil, or_false, List.mem_append] at hx ⊢
    tauto
  · obtain ⟨_, _, items⟩ := operands₃.items
    obtain ⟨_, _, saved⟩ := returns₃.items
    have fresh (x : Nat) (hx : h₃.Live [o, r, l] x) : a ≠ x := fun e => f.new (e ▸ hx)
    have apart : o ≠ r := fun e => (e₂.new r (by simp)).2 (e ▸ lo₁)
    have arrays : od ≠ rd := fun e => (e₂.new rd (by simp)).2 (e ▸ lod₁)
    simp only [List.nodup_cons, List.mem_cons, List.not_mem_nil, or_false, not_or, List.nodup_nil, and_true,
      not_false_eq_true]
    refine ⟨⟨fresh o lo₃, fresh od lod₃, fresh r lr₃, fresh rd lrd₃, fresh l ll₃⟩, ⟨?_, apart, ?_, ?_⟩,
      ⟨?_, arrays, ?_⟩, ⟨?_, ?_⟩, ?_⟩
    · exact operands₃.is.ne items.is (by decide)
    · exact operands₃.is.ne saved.is (by decide)
    · exact operands₃.is.ne waits.is (by decide)
    · exact items.is.ne returns₃.is (by decide)
    · exact items.is.ne waits.is (by decide)
    · exact returns₃.is.ne saved.is (by decide)
    · exact returns₃.is.ne waits.is (by decide)
    · exact saved.is.ne waits.is (by decide)
  · have ref (i : Nat) (hi : i < 7) :
        h₄.ref a i = (overwrite (fun _ => 0) (contextWords o r l pc env number) i).toNat := by
      rw [Heap.ref, cell i hi]
    refine ⟨f.is, ref 0 (by decide), ?_, ?_, ?_, cell 4 (by decide), ?_, ref 6 (by decide), ?_, ?_, ?_⟩
    · exact (ref 1 (by decide)).trans (small o operands₃.is.allocated)
    · exact (ref 2 (by decide)).trans (small r returns₃.is.allocated)
    · exact (ref 3 (by decide)).trans (small env henv₃)
    · exact (ref 5 (by decide)).trans (small l waits.is.allocated)
    · exact operands₃.kept (f.evolves.kept o lo₃ id) (f.evolves.kept od lod₃ id)
    · exact returns₃.kept (f.evolves.kept r lr₃ id) (f.evolves.kept rd lrd₃ id)
    · exact waits.kept (f.evolves.kept l ll₃ id) fun n hn => absurd hn List.not_mem_nil

theorem NewContext.sameArena {k : Heap} {a o od r rd l pc env number : Nat} (same : h.SameArena k)
    (c : h.NewContext a o od r rd l pc env number) : k.NewContext a o od r rd l pc env number where
  is := same.is.mpr c.is
  pc := (congrFun same.ref _).trans c.pc
  operandsAt := (congrFun same.ref _).trans c.operandsAt
  returnsAt := (congrFun same.ref _).trans c.returnsAt
  environment := (congrFun same.ref _).trans c.environment
  blocked := by
    rw [cell, same.wordAt]
    exact c.blocked
  waitsAt := (congrFun same.ref _).trans c.waitsAt
  id := (congrFun same.ref _).trans c.id
  operands := c.operands.sameArena same
  returns := c.returns.sameArena same
  waits := c.waits.kept (same.kept c.waits.is.allocated) fun n hn => absurd hn List.not_mem_nil

theorem Tidy.createContext {env : Nat} (tidy : h.Tidy) (henv : h.Allocated env) (pc number : Nat) :
    NoMemory (Context.create pc env number) h ∨ ∃ a o od r rd l h', Context.create pc env number h = .ok a h' ∧
      Evolves h (h.Live [env]) h' (fun _ => False) [a, o, od, r, rd, l] ∧
      [a, o, od, r, rd, l].Nodup ∧ h'.NewContext a o od r rd l pc env number := by
  have good : ∀ x ∈ [env], h.Allocated x := by simpa using henv
  have eq : Context.create pc env number = withRoots [env] (Stack.create >>= fun o => withRoots [o] Stack.create >>=
      fun r => withRoots [o, r] LinkedList.create >>= fun l =>
        withRoots [o, r, l] (Heap.allocateTagged .context 7) >>= fun a =>
          writes a (contextWords o r l pc env number) >>= fun _ => pure a) := by
    simp only [Context.create, contextWords, writes, bind_assoc, pure_bind]
    rfl
  rw [eq]
  have root : env ∈ (h.rooting [env]).roots := by
    rw [roots_rooting]
    exact List.mem_append_right _ (by simp)
  rcases (tidy.rooting good).assembleContext root pc number rfl with full | ⟨a, o, od, r, rd, l, h', run, e, nodup, new⟩
  · exact .inl (withRoots_noMemory full)
  · right
    have e := e.weaken (fun b hb => (live_rooting tidy good).mpr hb) (fun _ _ no => no) fun _ hb => hb
    obtain ⟨h'', run, same, -, e⟩ := withRoots_ok run e
    exact ⟨a, o, od, r, rd, l, h'', run, e, nodup, new.sameArena same⟩

/-! ### Channels and wait groups -/

/-- What a new channel consists of. -/
structure NewChannel (h' : Heap) (a q d l : Nat) (n : Nat) : Prop where
  is : h'.Is a .channel 3
  capacity : h'.ref a Channel.capacityField = n
  bufferAt : h'.ref a Channel.bufferField = q
  waitersAt : h'.ref a Channel.waitersField = l
  buffer : h'.IsQueue q d n []
  waiters : h'.IsList l [] []

theorem Tidy.createChannel (tidy : h.Tidy) (n : Nat) :
    NoMemory (Channel.create n) h ∨ ∃ a q d l h', Channel.create n h = .ok a h' ∧
      Evolves h (h.Live []) h' (fun _ => False) [a, q, d, l] ∧ [a, q, d, l].Nodup ∧ h'.NewChannel a q d l n := by
  have eq : Channel.create n = Queue.create n >>= fun q => withRoots [q] LinkedList.create >>= fun l =>
      withRoots [q, l] (Heap.allocateTagged .channel 3) >>= fun a =>
        writes a [(0, UInt64.ofNat n), (1, UInt64.ofNat q), (2, UInt64.ofNat l)] >>= fun _ => pure a := by
    simp only [Channel.create, writes, bind_assoc, pure_bind]
    rfl
  rw [eq]
  rcases tidy.createQueue n with full | ⟨q, d, h₁, run₁, e₁, buffer⟩
  · exact .inl (full.bind _)
  have good₁ : ∀ x ∈ [q], h₁.Allocated x := by simpa using buffer.is.allocated
  rcases e₁.tidy.listRooted good₁ with full | ⟨l, h₂, run₂, e₂, waiters⟩
  · exact .inl (.after run₁ (full.bind _))
  have lq₁ : h₁.Live [q] q := .extra (by simp)
  have ld₁ := lq₁.child (buffer.child e₁.tidy)
  have buffer₂ := buffer.kept (e₂.kept q lq₁ id) (e₂.kept d ld₁ id)
  have good₂ : ∀ x ∈ [q, l], h₂.Allocated x := by simp [buffer₂.is.allocated, waiters.is.allocated]
  have lq₂ : h₂.Live [q, l] q := .extra (by simp)
  have ld₂ := lq₂.child (buffer₂.child e₂.tidy)
  have ll₂ : h₂.Live [q, l] l := .extra (by simp)
  have smallq := e₂.tidy.sound.toNat_ofNat buffer₂.is.allocated
  have smalll := e₂.tidy.sound.toNat_ofNat waiters.is.allocated
  rcases make_fields (t := .channel) (π := [1, 2]) rfl
    (e₂.tidy.allocateRooted good₂ (t := .channel) (n := 3) (Tag.fits_fields rfl (by decide)))
    (ω := [(0, UInt64.ofNat n), (1, UInt64.ofNat q), (2, UInt64.ofNat l)]) (by simp [smallq, smalll]) with
    full | ⟨a, h₃, run₃, f⟩
  · exact .inl (.after run₁ (.after run₂ full))
  right
  refine ⟨a, q, d, l, h₃, (run_after run₁ _).trans ((run_after run₂ _).trans run₃), ?_, ?_, ?_⟩
  · have live₁ (x : Nat) (hx : h.Live [] x) : h₁.Live [q] x := e₁.live tidy (by simp) (fun _ _ no => no) (by simp) hx
    have live₂ (x : Nat) (hx : h₁.Live [q] x) : h₂.Live [q, l] x :=
      e₂.live e₁.tidy good₁ (fun _ _ no => no) (by simpa using lq₂) hx
    have two := e₁.step e₂ live₁ (by simpa using ⟨ld₁, lq₁⟩)
    have three := two.step f.evolves (fun x hx => live₂ x (live₁ x hx)) (by simpa using ⟨ld₂, lq₂, ll₂⟩)
    refine three.weaken (fun _ hb => hb) (fun _ _ no => no) ?_
    intro x hx
    simp only [List.mem_cons, List.not_mem_nil, or_false, List.mem_append] at hx ⊢
    tauto
  · obtain ⟨slots, _, _, _, items, _⟩ := buffer₂.ring
    have fresh (x : Nat) (hx : h₂.Live [q, l] x) : a ≠ x := fun e => f.new (e ▸ hx)
    simp only [List.nodup_cons, List.mem_cons, List.not_mem_nil, or_false, not_or, List.nodup_nil, and_true,
      not_false_eq_true]
    refine ⟨⟨fresh q lq₂, fresh d ld₂, fresh l ll₂⟩, ⟨?_, ?_⟩, ?_⟩
    · exact buffer₂.is.ne items.is (by decide)
    · exact buffer₂.is.ne waiters.is (by decide)
    · exact items.is.ne waiters.is (by decide)
  · have small : n < 2 ^ 64 := Nat.lt_trans (buffer.small e₁.tidy) (by decide)
    have ref (i : Nat) (hi : i < 3) : h₃.ref a i =
        (overwrite (fun _ => 0) [(0, UInt64.ofNat n), (1, UInt64.ofNat q), (2, UInt64.ofNat l)] i).toNat := by
      rw [Heap.ref, f.cells i hi]
    refine ⟨f.is, ?_, (ref 1 (by decide)).trans smallq, (ref 2 (by decide)).trans smalll, ?_, ?_⟩
    · refine (ref 0 (by decide)).trans ?_
      exact UInt64.toNat_ofNat'.trans (Nat.mod_eq_of_lt small)
    · exact buffer₂.kept (f.evolves.kept q lq₂ id) (f.evolves.kept d ld₂ id)
    · exact waiters.kept (f.evolves.kept l ll₂ id) fun n hn => absurd hn List.not_mem_nil

/-- What a new wait group consists of. -/
structure NewGroup (h' : Heap) (a q d : Nat) : Prop where
  is : h'.Is a .waitGroup 2
  counter : h'.cell a WaitGroup.counterField = 0
  waitersAt : h'.ref a WaitGroup.waitersField = q
  waiters : h'.IsQueue q d 0 []

theorem Tidy.createGroup (tidy : h.Tidy) :
    NoMemory WaitGroup.create h ∨ ∃ a q d h', WaitGroup.create h = .ok a h' ∧
      Evolves h (h.Live []) h' (fun _ => False) [a, q, d] ∧ [a, q, d].Nodup ∧ h'.NewGroup a q d := by
  have eq : WaitGroup.create = Queue.create 0 >>= fun q => withRoots [q] (Heap.allocateTagged .waitGroup 2) >>= fun a =>
      writes a [(1, UInt64.ofNat q)] >>= fun _ => pure a := by
    simp only [WaitGroup.create, writes, bind_assoc, pure_bind]
    rfl
  rw [eq]
  rcases tidy.createQueue 0 with full | ⟨q, d, h₁, run₁, e₁, waiters⟩
  · exact .inl (full.bind _)
  have good₁ : ∀ x ∈ [q], h₁.Allocated x := by simpa using waiters.is.allocated
  have lq₁ : h₁.Live [q] q := .extra (by simp)
  have ld₁ := lq₁.child (waiters.child e₁.tidy)
  have smallq := e₁.tidy.sound.toNat_ofNat waiters.is.allocated
  rcases make_fields (t := .waitGroup) (π := [1]) rfl
    (e₁.tidy.allocateRooted good₁ (t := .waitGroup) (n := 2) (Tag.fits_fields rfl (by decide)))
    (ω := [(1, UInt64.ofNat q)]) (by simp [smallq]) with full | ⟨a, h₂, run₂, f⟩
  · exact .inl (.after run₁ full)
  right
  refine ⟨a, q, d, h₂, (run_after run₁ _).trans run₂, ?_, ?_, f.is, f.cells 0 (by decide), ?_, ?_⟩
  · have live₁ (x : Nat) (hx : h.Live [] x) : h₁.Live [q] x := e₁.live tidy (by simp) (fun _ _ no => no) (by simp) hx
    refine (e₁.step f.evolves live₁ (by simpa using ⟨ld₁, lq₁⟩)).weaken (fun _ hb => hb) (fun _ _ no => no) ?_
    intro x hx
    simp only [List.mem_cons, List.not_mem_nil, or_false, List.mem_append] at hx ⊢
    tauto
  · obtain ⟨slots, _, _, _, items, _⟩ := waiters.ring
    have fresh (x : Nat) (hx : h₁.Live [q] x) : a ≠ x := fun e => f.new (e ▸ hx)
    simp only [List.nodup_cons, List.mem_cons, List.not_mem_nil, or_false, not_or, List.nodup_nil, and_true,
      not_false_eq_true]
    exact ⟨⟨fresh q lq₁, fresh d ld₁⟩, waiters.is.ne items.is (by decide)⟩
  · rw [Heap.ref, f.cells _ (by decide)]
    exact smallq
  · exact waiters.kept (f.evolves.kept q lq₁ id) (f.evolves.kept d ld₁ id)

end Heap

end FiberMachine
