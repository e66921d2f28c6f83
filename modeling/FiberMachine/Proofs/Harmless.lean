import FiberMachine.Proofs.Compounds
import FiberMachine.Proofs.Copies
import FiberMachine.Proofs.Texts

/-!
# Running out of memory does no harm

An operation asks for the memory it needs before it changes anything that is in use. When it asks several times, all it has done by then is
to make blocks that nothing refers to yet. So if it fails because the memory is used up, whatever could be reached is as it was, no address
stays protected, and the heap can be used as before.
-/

namespace FiberMachine

namespace Heap

variable {α β : Type} {h h' h'' : Heap} {m : HeapM α} {k : α → HeapM β} {look : HeapReader α} {a b i n x : Nat} {t : Tag} {w : Word}
  {xs rs N : List Nat}

/-! ### Actions that need no memory -/

/-- One of two actions fails for lack of memory if both together do. -/
theorem NoMemory.of_bind (full : NoMemory (m >>= k) h) : NoMemory m h ∨ ∃ y h', m h = .ok y h' ∧ NoMemory (k y) h' := by
  obtain ⟨n, h'', failed⟩ := full
  rw [HeapM.run_bind] at failed
  cases run : m h with
  | ok y h' =>
    rw [run] at failed
    exact .inr ⟨y, h', rfl, n, h'', failed⟩
  | error e h' =>
    rw [run] at failed
    cases failed
    exact .inl ⟨n, h'', run⟩

/-- The observation does not fail for lack of memory. -/
def Plain (look : HeapReader α) : Prop := ∀ h n, look h ≠ .error (.error (.outOfMemory n))

/-- The action asks for no memory, so it does not fail for lack of it. -/
def Frugal (m : HeapM α) : Prop := ∀ h, ¬NoMemory m h

namespace Plain

theorem pure (y : α) : Plain (Pure.pure y : HeapReader α) := fun _ _ no => by cases no

theorem bind {next : α → HeapReader β} (first : Plain look) (rest : ∀ y, Plain (next y)) : Plain (look >>= next) := by
  intro h n no
  rw [HeapReader.run_bind] at no
  cases found : look h with
  | ok y =>
    rw [found] at no
    exact rest y h n no
  | error e =>
    rw [found] at no
    cases no
    exact first h n found

theorem ite {p : Prop} [Decidable p] {other : HeapReader α} (first : Plain look) (second : Plain other) :
    Plain (if p then look else other) := by
  split
  · exact first
  · exact second

theorem fault (e : Fault) : Plain (throw (.fault e) : HeapReader α) := fun _ _ no => by cases no

theorem word (a : Addr) : Plain (Heap.word a) := by
  intro h n no
  unfold Heap.word at no
  split at no <;> cases no

theorem blockWords (a : Addr) : Plain (Heap.blockWords a) :=
  .bind (.bind (.bind (word a) fun _ => pure _) fun _ => pure _) fun _ => pure _

theorem read (a i : Nat) : Plain (Heap.read a i) := .bind (blockWords a) fun _ => .ite (word _) (fault _)

theorem readNat (a i : Nat) : Plain (Heap.readNat a i) := .bind (read a i) fun _ => pure _

theorem length (a : Addr) : Plain (Sequence.length a) := readNat a 0

theorem remainder (n k : Nat) : Plain (Heap.remainder n k) := .ite (fault _) (pure _)

end Plain

namespace Frugal

theorem pure (y : α) : Frugal (Pure.pure y : HeapM α) := by
  rintro h ⟨_, _, no⟩
  cases no

theorem fault (e : Fault) : Frugal (throw (.fault e) : HeapM α) := by
  rintro h ⟨_, _, no⟩
  cases no

theorem bind (first : Frugal m) (rest : ∀ y, Frugal (k y)) : Frugal (m >>= k) := by
  intro h full
  rcases full.of_bind with full | ⟨y, h', -, full⟩
  · exact first h full
  · exact rest y h' full

theorem ite {p : Prop} [Decidable p] {other : HeapM α} (first : Frugal m) (second : Frugal other) : Frugal (if p then m else other) := by
  split
  · exact first
  · exact second

theorem lift (plain : Plain look) : Frugal (liftM look : HeapM α) := by
  rintro h ⟨n, h', no⟩
  exact plain h n (HeapM.lift_error no).1

theorem setWord (a : Addr) (w : Word) : Frugal (Heap.setWord a w) := by
  rintro h ⟨n, h', no⟩
  unfold Heap.setWord at no
  split at no <;> cases no

theorem write (a i : Nat) (w : Word) : Frugal (Heap.write a i w) :=
  .bind (.lift (.blockWords a)) fun _ => .ite (setWord _ _) (fault _)

theorem writeNat (a i n : Nat) : Frugal (Heap.writeNat a i n) := write _ _ _

theorem setSlots (a i : Nat) (values : List Nat) : Frugal (Sequence.setSlots a i values) := by
  unfold Sequence.setSlots
  generalize 1 + i = j
  induction values generalizing j with
  | nil => exact pure _
  | cons v vs ih => exact .bind (writeNat _ _ _) fun _ => ih (j + 1)

theorem copySlots (a i b j n : Nat) : Frugal (Sequence.copySlots a i b j n) := by
  induction n generalizing i j with
  | zero => exact pure _
  | succ n ih => exact .bind (.lift (.readNat _ _)) fun _ => .bind (writeNat _ _ _) fun _ => ih _ _

theorem writeBytes (a i : Nat) (bytes : List UInt8) (n : Nat) : Frugal (Text.writeBytes a i bytes n) := by
  induction n generalizing i bytes with
  | zero => exact pure _
  | succ n ih => exact .bind (write _ _ _) fun _ => ih _ _

/-- An item is put into a ring that is not full, which needs no memory. -/
theorem tryPush (a x : Nat) : Frugal (Queue.tryPush a x) := by
  have storage : Plain (Queue.storage a) := .readNat _ _
  have capacity : Plain (Queue.capacity a) := .bind storage fun _ => .length _
  have full : Plain (Queue.isFull a) := .bind (.readNat _ _) fun _ => .bind capacity fun _ => .pure _
  unfold Queue.tryPush
  refine .bind (.lift full) fun _ => .ite (.pure _) ?_
  refine .bind (.lift capacity) fun _ => .bind (.lift (.readNat _ _)) fun _ => .bind (.lift (.readNat _ _)) fun _ =>
    .bind (.lift storage) fun _ => .bind (.lift (.remainder _ _)) fun _ => ?_
  exact .bind (writeNat _ _ _) fun _ => .bind (writeNat _ _ _) fun _ => .pure _

end Frugal

/-! ### Actions that fail without harm -/

/-- If the action runs out of memory, what could be reached is as it was. -/
def Harmless (h : Heap) (m : HeapM α) : Prop := NoMemory m h → Starved m h []

theorem Starved.weaken (full : Starved m h rs) : Starved m h [] := by
  obtain ⟨n, h', run, e⟩ := full
  exact ⟨n, h', run, e.weaken (fun b hb => (live_nil.mp hb).live) (fun _ _ no => no) fun _ hb => hb⟩

namespace Harmless

theorem frugal (frugal : Frugal m) : Harmless h m := fun full => (frugal h full).elim

theorem starved (full : Starved m h rs) : Harmless h m := fun _ => full.weaken

theorem ok {y : α} (run : m h = .ok y h') : Harmless h m := by
  rintro ⟨_, _, full⟩
  cases run.symm.trans full

/-- The heap is looked at first. -/
theorem read {next : α → HeapM β} (tidy : h.Tidy) (rest : ∀ y, look h = .ok y → Harmless h (next y)) :
    Harmless h ((liftM look : HeapM α) >>= next) := by
  intro full
  rcases full.of_bind with ⟨n, h', failed⟩ | ⟨y, h', run, full⟩
  · obtain ⟨-, rfl⟩ := HeapM.lift_error failed
    have full : Starved (liftM look : HeapM α) h [] := ⟨n, h, failed, .refl tidy (.live tidy (by simp))⟩
    exact full.bind next
  · obtain ⟨found, rfl⟩ := HeapM.lift_ok run
    obtain ⟨n, h'', failed, e⟩ := rest y found full
    exact ⟨n, h'', (run_after run next).trans failed, e⟩

/-- The memory is asked for first, and what comes after that needs none. -/
theorem before (first : Harmless h m) (rest : ∀ y, Frugal (k y)) : Harmless h (m >>= k) := by
  intro full
  rcases full.of_bind with full | ⟨y, h', -, full⟩
  · exact (first full).bind k
  · exact (rest y h' full).elim

theorem discard (first : Harmless h m) : Harmless h (Functor.discard m) := before first fun _ => .pure _

/-- New blocks are made first, to which nothing refers yet. -/
theorem bind (tidy : h.Tidy) (first : Harmless h m) (rest : ∀ y h', m h = .ok y h' →
    (∃ rs N, Evolves h (h.Live rs) h' (fun _ => False) N) ∧ Harmless h' (k y)) : Harmless h (m >>= k) := by
  intro full
  rcases full.of_bind with full | ⟨y, h', run, full⟩
  · exact (first full).bind k
  · obtain ⟨⟨rs, N, e⟩, harmless⟩ := rest y h' run
    obtain ⟨n, h₂, run', e'⟩ := harmless full
    have e : Evolves h (h.Live []) h' (fun _ => False) [] :=
      e.weaken (fun b hb => (live_nil.mp hb).live) (fun _ _ no => no) fun _ no => absurd no List.not_mem_nil
    have both := e.trans e' (fun b hb => e.live tidy (by simp) (fun _ _ no => no) (by simp) hb) fun _ no => absurd no List.not_mem_nil
    exact ⟨n, h₂, (run_after run k).trans run', both.weaken (fun _ hb => hb) (fun _ _ no => no.elim id id) fun _ hb => hb⟩

/-- A block is made first. It can be protected while the rest is done, together with what was protected before. -/
theorem behind {m : HeapM Nat} {k : Nat → HeapM β} {P : Heap → Nat → Prop} (tidy : h.Tidy) (first : Harmless h m) (made : Delivers m h rs P)
    (rest : ∀ d (h' : Heap), h'.Tidy → (∀ r ∈ rs ++ [d], h'.Allocated r) → Harmless h' (k d)) : Harmless h (m >>= k) := by
  refine .bind tidy first fun d h' run => ?_
  rcases made with ⟨_, _, full⟩ | ⟨_, _, N, run', e, hd, -⟩
  · cases run.symm.trans full
  cases run.symm.trans run'
  refine ⟨⟨rs, N, e⟩, rest d h' e.tidy fun r hr => ?_⟩
  rcases List.mem_append.mp hr with hr | hr
  · exact (e.stays r (.extra hr)).1
  · exact List.mem_singleton.mp hr ▸ hd

/-- However the action ends, the addresses are released again. -/
theorem withRoots (tidy : h.Tidy) (good : ∀ r ∈ rs, h.Allocated r) (inner : Harmless (h.rooting rs) m) :
    Harmless h (Heap.withRoots rs m) := by
  rintro ⟨n, h', full⟩
  have failed : NoMemory m (h.rooting rs) := by
    simp only [Heap.withRoots] at full
    split at full
    · cases full
    · rename_i run
      cases full
      exact ⟨n, _, run⟩
  exact (withRoots_starved tidy good (inner failed)).weaken

/-! ### Containers -/

theorem create (tidy : h.Tidy) (counted : t.layout = .counted) (n : Nat) : Harmless h (Sequence.create t n) := by
  rcases tidy.createSeq_spec counted n with full | ⟨a, h', run, -⟩
  · exact starved full
  · exact ok run

theorem createRooted (tidy : h.Tidy) (good : ∀ r ∈ rs, h.Allocated r) (counted : t.layout = .counted) (n : Nat) :
    Harmless h (Heap.withRoots rs (Sequence.create t n)) :=
  .withRoots tidy good (create (tidy.rooting good) counted n)

theorem allocateRooted (tidy : h.Tidy) (good : ∀ r ∈ rs, h.Allocated r) (fits : t.Fits n) :
    Harmless h (Heap.withRoots rs (Heap.allocateTagged t n)) := by
  rcases tidy.allocateRooted_spec good fits with full | ⟨a, h', run, -⟩
  · exact starved full
  · exact ok run

theorem allocateTagged (tidy : h.Tidy) (fits : t.Fits n) : Harmless h (Heap.allocateTagged t n) := by
  rcases tidy.allocateTagged_spec fits with full | ⟨a, h', run, -⟩
  · exact starved full
  · exact ok run

section
variable (tidy : h.Tidy) (ha : h.Allocated a) (hx : h.Allocated x)
include tidy ha hx

theorem pushStack : Harmless h (Stack.push a x) := by
  unfold Stack.push Stack.room
  refine .read tidy fun len _ => .before ?_ fun items => .bind (.writeNat _ _ _) fun _ => .writeNat _ _ _
  refine .read tidy fun items _ => .read tidy fun capacity _ => ?_
  split
  · refine .before (.createRooted tidy (by simp [ha, hx]) rfl _) fun grown => ?_
    exact .bind (.copySlots _ _ _ _ _) fun _ => .bind (.writeNat _ _ _) fun _ => .pure _
  · exact frugal (.pure _)

theorem pushQueue : Harmless h (Queue.push a x) := by
  unfold Queue.push Queue.grow
  refine .read tidy fun full _ => ?_
  split
  · refine .before ?_ fun _ => .bind (.tryPush _ _) fun _ => .pure _
    refine .read tidy fun items _ => .before (.createRooted tidy (by simp [ha, hx]) rfl _) fun grown => ?_
    exact .bind (.setSlots _ _ _) fun _ => .bind (.writeNat _ _ _) fun _ => .writeNat _ _ _
  · exact frugal (.bind (.tryPush _ _) fun _ => .pure _)

theorem pushList : Harmless h (LinkedList.pushBack a x) := by
  unfold LinkedList.pushBack
  refine .before (.allocateRooted tidy (by simp [ha, hx]) (Tag.fits_fields rfl (by decide))) fun node => ?_
  refine .bind (.lift (.readNat _ _)) fun last => .bind (.writeNat _ _ _) fun _ => .bind (.writeNat _ _ _) fun _ => ?_
  have rest : Frugal (Heap.writeNat a LinkedList.lastField node >>= fun _ => do
      Heap.writeNat a LinkedList.lengthField ((← LinkedList.length a) + 1) : HeapM Unit) :=
    .bind (.writeNat _ _ _) fun _ => .bind (.lift (.readNat _ _)) fun _ => .writeNat _ _ _
  exact .ite (.bind (.writeNat _ _ _) fun _ => rest) (.bind (.writeNat _ _ _) fun _ => rest)

theorem extendScope : Harmless h (Scope.extend a x) := by
  unfold Scope.extend
  refine .read tidy fun frames _ => .before (.createRooted tidy (by simp [ha, hx]) rfl _) fun longer => ?_
  exact .bind (.setSlots _ _ _) fun _ => .pure _

end

theorem arrayOf (tidy : h.Tidy) (good : ∀ x ∈ xs, h.Allocated x) : Harmless h (Sequence.arrayOf xs) := by
  unfold Sequence.arrayOf Sequence.newArray
  exact .before (.createRooted tidy good rfl _) fun a => .bind (.setSlots _ _ _) fun _ => .pure _

/-! ### Contexts -/

section
variable {c : Nat} (tidy : h.Tidy) (hc : h.Allocated c) (kind : h.tagAt c = .context)
include tidy hc kind

/-- The references of a context are to allocated blocks. -/
theorem contextField (hi : i ∈ [1, 2, 3, 5]) : readNat c i h = .ok (h.ref c i) ∧ h.Allocated (h.ref c i) := by
  have room := laidOut_iff.mp (tidy.laidOut hc)
  rw [kind] at room
  have is : h.Is c .context 6 := ⟨hc, kind, room 5 (by decide)⟩
  refine ⟨tidy.sound.readNat_eq is ?_, tidy.consistent.child c _ hc (tidy.child_field is (π := [1, 2, 3, 5]) rfl hi)⟩
  revert i
  decide

theorem pushOperand (hx : h.Allocated x) : Harmless h (Context.pushOperand c x) := by
  refine .read tidy fun s found => ?_
  obtain ⟨stack, hs⟩ := contextField tidy hc kind (i := 1) (by decide)
  cases found.symm.trans stack
  exact pushStack tidy hs hx

theorem pushReturn (hx : h.Allocated x) : Harmless h (Context.pushReturn c x) := by
  refine .read tidy fun s found => ?_
  obtain ⟨stack, hs⟩ := contextField tidy hc kind (i := 2) (by decide)
  cases found.symm.trans stack
  exact pushStack tidy hs hx

theorem enterEnvironment (hx : h.Allocated x) : Harmless h (Context.enterEnvironment c x) := by
  have good : ∀ r ∈ [x], h.Allocated r := by simpa using hx
  refine .read tidy fun saved found => .before (.withRoots tidy good ?_) fun _ => .writeNat _ _ _
  obtain ⟨env, he⟩ := contextField tidy hc kind (i := 3) (by decide)
  cases found.symm.trans env
  have same : h.SameArena (h.rooting [x]) := sameArena_rooting
  exact pushReturn (tidy.rooting good) (same.allocated.mpr hc) (by rw [tagAt, same.wordAt, ← tagAt, kind]) (same.allocated.mpr he)

end

/-! ### Objects of several blocks -/

theorem ofBytes (tidy : h.Tidy) (bytes : List UInt8) : Harmless h (Text.ofBytes bytes) := by
  have stored : Harmless h (Text.newBytes bytes) := by
    unfold Text.newBytes
    split
    · exact frugal (.pure _)
    · exact .before (.allocateTagged tidy (Tag.fits_fields rfl (by simp))) fun a => .bind (.writeBytes _ _ _ _) fun _ => .pure _
  have made : Delivers (Text.newBytes bytes) h [] fun _ _ => True :=
    (tidy.makeStored bytes).imp_right fun ⟨d, h', run, e, hd, _⟩ => ⟨d, h', _, run, e, hd, trivial⟩
  refine .behind tidy stored made fun d h' tidy' good => ?_
  refine .before (.allocateRooted tidy' good (Tag.fits_fields rfl (by decide))) fun a => ?_
  exact .bind (.writeNat _ _ _) fun _ => .bind (.writeNat _ _ _) fun _ => .pure _

theorem concat (tidy : h.Tidy) (a b : Nat) : Harmless h (Text.concat a b) :=
  .read tidy fun _ _ => .read tidy fun _ _ => ofBytes tidy _

/-- An array is made, and then a block with one reference to it. -/
theorem createOver (tidy : h.Tidy) (n : Nat) (fits : t.Fits i) (b : Nat) : Harmless h (do
    let items ← Sequence.newArray n
    let addr ← Heap.withRoots [items] (Heap.allocateTagged t i)
    writeNat addr b items
    Pure.pure addr) := by
  have made : Delivers (Sequence.newArray n) h [] fun h' d => h'.IsSeq d .array (List.replicate n 0) :=
    (tidy.createSeq rfl n).imp_right fun ⟨d, h', run, e, _, items⟩ => ⟨d, h', _, run, e, items.is.allocated, items⟩
  refine .behind tidy (create tidy rfl n) made fun d h' tidy' good => ?_
  exact .before (.allocateRooted tidy' good fits) fun a => .bind (.writeNat _ _ _) fun _ => .pure _

theorem createStack (tidy : h.Tidy) : Harmless h Stack.create := createOver tidy _ (Tag.fits_fields rfl (by decide)) _

theorem createQueue (tidy : h.Tidy) (n : Nat) : Harmless h (Queue.create n) := createOver tidy _ (Tag.fits_fields rfl (by decide)) _

theorem createList (tidy : h.Tidy) : Harmless h LinkedList.create := .allocateTagged tidy (Tag.fits_fields rfl (by decide))

theorem listMade (tidy : h.Tidy) (good : ∀ r ∈ rs, h.Allocated r) :
    Delivers (Heap.withRoots rs LinkedList.create) h rs fun h' l => h'.IsList l [] [] :=
  (tidy.listRooted good).imp_right fun ⟨l, h', run, e, list⟩ => ⟨l, h', _, run, e, list.is.allocated, list⟩

theorem createChannel (tidy : h.Tidy) (n : Nat) : Harmless h (Channel.create n) := by
  have buffer : Delivers (Queue.create n) h [] fun h' q => ∃ d, h'.IsQueue q d n [] :=
    (tidy.createQueue n).imp_right fun ⟨q, d, h', run, e, queue⟩ => ⟨q, h', _, run, e, queue.is.allocated, d, queue⟩
  refine .behind tidy (createQueue tidy n) buffer fun q h₁ tidy₁ good₁ => ?_
  refine .behind tidy₁ (.withRoots tidy₁ good₁ (createList (tidy₁.rooting good₁))) (listMade tidy₁ good₁) fun l h₂ tidy₂ good₂ => ?_
  refine .before (.allocateRooted tidy₂ good₂ (Tag.fits_fields rfl (by decide))) fun a => ?_
  exact .bind (.writeNat _ _ _) fun _ => .bind (.writeNat _ _ _) fun _ => .bind (.writeNat _ _ _) fun _ => .pure _

theorem createRequest (tidy : h.Tidy) {r : Request} (good : ∀ a ∈ [r.context, r.channel, r.value, r.frame, r.environment], h.Allocated a) :
    Harmless h (Request.create r) := by
  refine .before (.allocateRooted tidy good (Tag.fits_fields rfl (by decide))) fun a => ?_
  exact .bind (.writeNat _ _ _) fun _ => .bind (.writeNat _ _ _) fun _ => .bind (.writeNat _ _ _) fun _ => .bind (.write _ _ _) fun _ =>
    .bind (.writeNat _ _ _) fun _ => .bind (.writeNat _ _ _) fun _ => .bind (.writeNat _ _ _) fun _ => .pure _

/-- Each of the three containers is protected while the next one is made. -/
theorem createContext {env : Nat} (tidy : h.Tidy) (henv : h.Allocated env) (pc number : Nat) :
    Harmless h (Context.create pc env number) := by
  have good : ∀ x ∈ [env], h.Allocated x := by simpa using henv
  have tidy₀ := tidy.rooting good
  have operands : Delivers Stack.create (h.rooting [env]) [] fun h' o => ∃ d, h'.IsStack o d [] :=
    tidy₀.createStack.imp_right fun ⟨o, d, h', run, e, stack⟩ => ⟨o, h', _, run, e, stack.is.allocated, d, stack⟩
  refine .withRoots tidy good (.behind tidy₀ (createStack tidy₀) operands fun o h₁ tidy₁ good₁ => ?_)
  have returns : Delivers (Heap.withRoots [o] Stack.create) h₁ [o] fun h' r => ∃ d, h'.IsStack r d [] :=
    (tidy₁.stackRooted good₁).imp_right fun ⟨r, d, h', run, e, stack⟩ => ⟨r, h', _, run, e, stack.is.allocated, d, stack⟩
  refine .behind tidy₁ (.withRoots tidy₁ good₁ (createStack (tidy₁.rooting good₁))) returns fun r h₂ tidy₂ good₂ => ?_
  refine .behind tidy₂ (.withRoots tidy₂ good₂ (createList (tidy₂.rooting good₂))) (listMade tidy₂ good₂) fun l h₃ tidy₃ good₃ => ?_
  refine .before (.allocateRooted tidy₃ good₃ (Tag.fits_fields rfl (by decide))) fun a => ?_
  exact .bind (.writeNat _ _ _) fun _ => .bind (.writeNat _ _ _) fun _ => .bind (.writeNat _ _ _) fun _ => .bind (.writeNat _ _ _) fun _ =>
    .bind (.writeNat _ _ _) fun _ => .bind (.writeNat _ _ _) fun _ => .pure _

theorem copy {v : Nat} (tidy : h.Tidy) (hv : h.Allocated v) : Harmless h (Value.copy v) := by
  rcases tidy.copied_spec hv with full | ⟨c, h', new, run, -⟩
  · exact starved full
  · exact ok run

end Harmless

/-! ### What is as it was -/

/-- What can be reached is as it was, and so is what is protected. Only garbage may have gone, and only garbage may be new. -/
structure Unharmed (h h' : Heap) : Prop where
  tidy : h'.Tidy
  contexts : h'.contexts = h.contexts
  temporaries : h'.temporaries = h.temporaries
  capacity : h'.capacity = h.capacity
  kept : ∀ a, h.Reachable a → Kept h h' a
  reachable : ∀ a, h'.Reachable a ↔ h.Reachable a

theorem Evolves.unharmed (e : Evolves h (h.Live []) h' (fun _ => False) []) (tidy : h.Tidy) : Unharmed h h' where
  tidy := e.tidy
  contexts := e.contexts
  temporaries := e.temporaries
  capacity := e.capacity
  kept := fun a ha => e.kept a (live_nil.mpr ha) id
  reachable := fun a => live_nil.symm.trans ((e.live_iff tidy (by simp)).trans live_nil)

end Heap

/-- An operation that may ask for memory, with what it is given. -/
inductive Demand where
  | pushStack (stack value : Addr)
  | pushQueue (queue value : Addr)
  | pushList (list value : Addr)
  | pushOperand (context value : Addr)
  | pushReturn (context value : Addr)
  | enterEnvironment (context env : Addr)
  | extendScope (env frame : Addr)
  | arrayOf (elements : List Addr)
  | ofBytes (bytes : List UInt8)
  | concat (front back : Addr)
  | createChannel (capacity : Nat)
  | createRequest (request : Request)
  | createContext (pc : Nat) (env : Addr) (id : Nat)
  | copy (value : Addr)

namespace Demand

open Heap

/-- What the operation does, whatever it answers. -/
def run : Demand → HeapM Unit
  | pushStack a x => Stack.push a x
  | pushQueue a x => Queue.push a x
  | pushList a x => LinkedList.pushBack a x
  | pushOperand c x => Context.pushOperand c x
  | pushReturn c x => Context.pushReturn c x
  | enterEnvironment c env => Context.enterEnvironment c env
  | extendScope env frame => discard (Scope.extend env frame)
  | arrayOf xs => discard (Sequence.arrayOf xs)
  | ofBytes bytes => discard (Text.ofBytes bytes)
  | concat a b => discard (Text.concat a b)
  | createChannel capacity => discard (Channel.create capacity)
  | createRequest r => discard (Request.create r)
  | createContext pc env id => discard (Context.create pc env id)
  | copy v => discard (Value.copy v)

/-- What the operation is given is there, and a context is one that the heap knows. -/
def Allowed (h : Heap) : Demand → Prop
  | pushStack a x | pushQueue a x | pushList a x | extendScope a x | concat a x => h.Allocated a ∧ h.Allocated x
  | pushOperand c x | pushReturn c x | enterEnvironment c x => c ∈ h.contexts ∧ h.tagAt c = .context ∧ h.Allocated x
  | arrayOf xs => ∀ x ∈ xs, h.Allocated x
  | createRequest r => ∀ a ∈ [r.context, r.channel, r.value, r.frame, r.environment], h.Allocated a
  | createContext _ a _ | copy a => h.Allocated a
  | ofBytes _ | createChannel _ => True

variable {h h' : Heap} {d : Demand} {n : Nat}

theorem harmless (tidy : h.Tidy) (allowed : d.Allowed h) : Harmless h d.run := by
  have context {c : Nat} (hc : c ∈ h.contexts) : h.Allocated c := tidy.consistent.root c (by simp [Heap.roots, hc])
  cases d with
  | pushStack a x => exact .pushStack tidy allowed.1 allowed.2
  | pushQueue a x => exact .pushQueue tidy allowed.1 allowed.2
  | pushList a x => exact .pushList tidy allowed.1 allowed.2
  | pushOperand c x => exact .pushOperand tidy (context allowed.1) allowed.2.1 allowed.2.2
  | pushReturn c x => exact .pushReturn tidy (context allowed.1) allowed.2.1 allowed.2.2
  | enterEnvironment c env => exact .enterEnvironment tidy (context allowed.1) allowed.2.1 allowed.2.2
  | extendScope env frame => exact .discard (.extendScope tidy allowed.1 allowed.2)
  | arrayOf xs => exact .discard (.arrayOf tidy allowed)
  | ofBytes bytes => exact .discard (.ofBytes tidy bytes)
  | concat a b => exact .discard (.concat tidy a b)
  | createChannel capacity => exact .discard (.createChannel tidy capacity)
  | createRequest r => exact .discard (.createRequest tidy allowed)
  | createContext pc env id => exact .discard (.createContext tidy allowed pc id)
  | copy v => exact .discard (.copy tidy allowed)

/-- An operation that runs out of memory leaves everything that can be reached as it was. -/
theorem unharmed_of_outOfMemory (tidy : h.Tidy) (allowed : d.Allowed h) (failed : d.run h = .error (.error (.outOfMemory n)) h') :
    Unharmed h h' := by
  obtain ⟨m, k, run, e⟩ := harmless tidy allowed ⟨n, h', failed⟩
  cases run.symm.trans failed
  exact e.unharmed tidy

/-- An environment at 4, and an integer at 2 that nothing refers to. -/
def narrow : Heap := built 32 [.allocateTagged .environment 2, .pushRoot 4, .allocateTagged .int 1]

/-- There is memory for the two stacks of a context and not for its list. The integer has gone, and the stacks are left as garbage. -/
theorem unharmed_of_outOfMemory_context : ∃ m h', (createContext 0 4 1).run narrow = .error (.error (.outOfMemory m)) h' ∧
    Unharmed narrow h' ∧ narrow.allocatedBlocks.map Block.addr = [0, 2, 4] ∧ h'.allocatedBlocks.map Block.addr = [0, 4, 8, 16, 20, 24] := by
  have tidy : narrow.Tidy := tidy_built (by decide) (by decide +kernel) (by decide +kernel)
  have fails : Starves (fun h' => h'.allocatedBlocks.map Block.addr == [0, 4, 8, 16, 20, 24])
      ((createContext 0 4 1).run narrow) = true := by decide +kernel
  obtain ⟨m, h', run, left⟩ := starves_iff.mp fails
  have there : narrow.Allocated 4 := by decide +kernel
  exact ⟨m, h', run, unharmed_of_outOfMemory (d := createContext 0 4 1) tidy there run, by decide +kernel, beq_iff_eq.mp left⟩

end Demand

end FiberMachine
