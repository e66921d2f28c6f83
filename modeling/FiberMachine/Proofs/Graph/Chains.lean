import FiberMachine.Object.LinkedList
import FiberMachine.Proofs.Graph.Making

/-!
# Linked lists in two heaps

The nodes of a chain are ordered, so a walk along it meets no node twice and ends before it has met as
many as there are words. That holds in both heaps, however large they are, and so both walks end at the same
node.
-/

namespace FiberMachine

namespace Heap

variable {v v' : View} {h h' k k' : Heap} {a b c d i j m n x y : Nat} {t u : Tag} {as seen : List Addr} {P : Addr → Prop}

/-! ### Walking along a chain -/

/-- The nodes that a walk has met before it comes to `a`. -/
structure Met (v : View) (a : Addr) (seen : List Addr) : Prop where
  blocks : ∀ b ∈ seen, v.blocks b
  nodup : seen.Nodup
  before : a = unassigned ∨ ∀ b ∈ seen, v.rank b < v.rank a

namespace Twins

section

variable (g : Twins v h k) (ha : v.blocks a) (node : h.tagAt a = .listNode)
include g ha node

theorem value_same : Mirrors h k (LinkedList.value a) (LinkedList.value (v.name a)) fun x y => y = v.name x ∧ v.blocks x ∧ x = h.ref a 0 :=
  g.readNat_reference ha ((refersAt_fields node rfl).mpr (by decide))

theorem before_same : Mirrors h k (LinkedList.before a) (LinkedList.before (v.name a)) fun x y =>
    y = v.name x ∧ v.blocks x ∧ (x ≠ unassigned → h.tagAt x = .listNode ∧ v.rank x < v.rank a) := by
  refine (g.readNat_leads ha node (i := 1) rfl).weaken fun x y _ => ?_
  rintro ⟨same, blocks, rfl, is⟩
  exact ⟨same, blocks, fun some => ⟨is some, ((g.ordered a ha).before node).resolve_left some⟩⟩

theorem after_same : Mirrors h k (LinkedList.after a) (LinkedList.after (v.name a)) fun x y =>
    y = v.name x ∧ v.blocks x ∧ (x ≠ unassigned → h.tagAt x = .listNode ∧ v.rank a < v.rank x) := by
  refine (g.readNat_leads ha node (i := 2) rfl).weaken fun x y _ => ?_
  rintro ⟨same, blocks, rfl, is⟩
  exact ⟨same, blocks, fun some => ⟨is some, ((g.ordered a ha).after node).resolve_left some⟩⟩

end

end Twins

theorem Met.next (met : Met v a seen) (ha : v.blocks a) (some : a ≠ unassigned) (next : b = unassigned ∨ v.rank a < v.rank b) : Met v b (a :: seen) := by
  have before := met.before.resolve_left some
  refine ⟨fun c hc => ?_, List.nodup_cons.mpr ⟨fun no => (Nat.lt_irrefl _ (before a no)).elim, met.nodup⟩, ?_⟩
  · rcases List.mem_cons.mp hc with rfl | hc
    · exact ha
    · exact met.blocks c hc
  · refine next.imp_right fun lt c hc => ?_
    rcases List.mem_cons.mp hc with rfl | hc
    · exact lt
    · exact (before c hc).trans lt

theorem Met.nothing : Met v a [] := ⟨fun _ no => absurd no List.not_mem_nil, List.nodup_nil, .inr fun _ no => absurd no List.not_mem_nil⟩

/-- The first of the values, and the others. -/
theorem valuesFrom_cons {xs : List Addr} (some : a ≠ unassigned) (run : LinkedList.valuesFrom a (m + 1) h = .ok xs) :
    ∃ x rest c, LinkedList.value a h = .ok x ∧ LinkedList.after a h = .ok c ∧ LinkedList.valuesFrom c m h = .ok rest ∧ xs = x :: rest := by
  simp only [LinkedList.valuesFrom, if_neg some, HeapReader.run_bind] at run
  cases first : LinkedList.value a h with
  | error e => simp [first] at run
  | ok x =>
    cases second : LinkedList.after a h with
    | error e => simp [first, second] at run
    | ok c =>
      cases third : LinkedList.valuesFrom c m h with
      | error e => simp [first, second, third] at run
      | ok rest =>
        simp only [first, second, third] at run
        cases run
        exact ⟨x, rest, c, rfl, rfl, third, rfl⟩

namespace Twins

/-- The values from a node on are the same, whatever bounds the walks have, as long as they can meet all blocks. -/
theorem valuesFrom_same (g : Twins v h k) (ha : v.blocks a) (node : a ≠ unassigned → h.tagAt a = .listNode) (met : Met v a seen)
    (fuel : seen.length + m = h.capacity + 1) (fuel' : seen.length + n = v.extent + 1) :
    Mirrors h k (LinkedList.valuesFrom a m) (LinkedList.valuesFrom (v.name a) n) fun xs ys => ys = xs.map v.name ∧ ∀ x ∈ xs, v.blocks x := by
  obtain ⟨few, few'⟩ := g.fewer met.blocks met.nodup
  induction m generalizing a n seen with
  | zero => omega
  | succ m ih =>
    obtain ⟨n, rfl⟩ : ∃ n', n = n' + 1 := ⟨n - 1, by omega⟩
    unfold LinkedList.valuesFrom
    by_cases nil : a = unassigned
    · rw [if_pos nil, if_pos ((g.name_nil ha).mpr nil)]
      exact .answer ⟨rfl, fun _ no => absurd no List.not_mem_nil⟩
    · rw [if_neg nil, if_neg (mt (g.name_nil ha).mp nil)]
      refine (g.value_same ha (node nil)).bind fun x _ _ => ?_
      rintro ⟨rfl, hx, -⟩
      refine (g.after_same ha (node nil)).bind fun c _ _ => ?_
      rintro ⟨rfl, hc, later⟩
      have met' : Met v c (a :: seen) := met.next ha nil ((em (c = unassigned)).imp_right fun some => (later some).2)
      obtain ⟨few, few'⟩ := g.fewer met'.blocks met'.nodup
      rw [List.length_cons] at few few'
      refine (ih hc (fun some => (later some).1) met' (by rw [List.length_cons]; omega) (by rw [List.length_cons]; omega) few few').bind fun xs _ _ => ?_
      rintro ⟨rfl, hxs⟩
      refine .answer ⟨rfl, fun y hy => ?_⟩
      rcases List.mem_cons.mp hy with rfl | hy
      · exact hx
      · exact hxs y hy

/-- A search finds the same node in both heaps if it asks the same of the values. -/
theorem findFrom_same {p p' : Addr → HeapReader Bool} (g : Twins v h k) (ha : v.blocks a) (node : a ≠ unassigned → h.tagAt a = .listNode)
    (met : Met v a seen) (fuel : seen.length + m = h.capacity + 1) (fuel' : seen.length + n = v.extent + 1)
    (test : ∀ x, v.blocks x → (∀ xs, LinkedList.valuesFrom a m h = .ok xs → x ∈ xs) → Mirrors h k (p x) (p' (v.name x)) fun q q' => q' = q) :
    Mirrors h k (LinkedList.findFrom p a m) (LinkedList.findFrom p' (v.name a) n) fun r r' => r' = r.map v.name ∧
      ∀ d ∈ r, v.blocks d ∧ h.tagAt d = .listNode ∧ ∀ xs, LinkedList.valuesFrom a m h = .ok xs → h.ref d 0 ∈ xs := by
  obtain ⟨few, few'⟩ := g.fewer met.blocks met.nodup
  induction m generalizing a n seen with
  | zero => omega
  | succ m ih =>
    obtain ⟨n, rfl⟩ : ∃ n', n = n' + 1 := ⟨n - 1, by omega⟩
    unfold LinkedList.findFrom
    by_cases nil : a = unassigned
    · rw [if_pos nil, if_pos ((g.name_nil ha).mpr nil)]
      exact .answer ⟨rfl, fun _ no => by cases no⟩
    · rw [if_neg nil, if_neg (mt (g.name_nil ha).mp nil)]
      refine (g.value_same ha (node nil)).bind fun x _ first => ?_
      rintro ⟨rfl, hx, value⟩
      have head (xs : List Addr) (run : LinkedList.valuesFrom a (m + 1) h = .ok xs) : x ∈ xs := by
        obtain ⟨x', rest, c, first', -, -, rfl⟩ := valuesFrom_cons nil run
        cases first.symm.trans first'
        exact List.mem_cons_self
      refine (test x hx head).bind fun _ found _ => ?_
      rintro rfl
      cases found with
      | true => exact .answer ⟨rfl, fun d hd => by cases hd; exact ⟨ha, node nil, fun xs run => value ▸ head xs run⟩⟩
      | false =>
        refine (g.after_same ha (node nil)).bind fun c _ second => ?_
        rintro ⟨rfl, hc, later⟩
        have tail {z : Nat} {xs : List Addr} (run : LinkedList.valuesFrom a (m + 1) h = .ok xs)
            (mem : ∀ xs, LinkedList.valuesFrom c m h = .ok xs → z ∈ xs) : z ∈ xs := by
          obtain ⟨x', rest, c', -, second', run', rfl⟩ := valuesFrom_cons nil run
          cases second.symm.trans second'
          exact List.mem_cons_of_mem x' (mem rest run')
        have met' : Met v c (a :: seen) := met.next ha nil ((em (c = unassigned)).imp_right fun some => (later some).2)
        obtain ⟨few, few'⟩ := g.fewer met'.blocks met'.nodup
        rw [List.length_cons] at few few'
        refine (ih hc (fun some => (later some).1) met' (by rw [List.length_cons]; omega) (by rw [List.length_cons]; omega)
          (fun z hz mem => test z hz fun xs run => tail run mem) few few').weaken fun r r' _ => ?_
        rintro ⟨rfl, good⟩
        exact ⟨rfl, fun d hd => ⟨(good d hd).1, (good d hd).2.1, fun xs run => tail run (good d hd).2.2⟩⟩

section

variable (g : Twins v h k) (ha : v.blocks a) (is : a ≠ unassigned → h.tagAt a = .list)
include g ha is

theorem listLength_same : Mirrors h k (LinkedList.length a) (LinkedList.length (v.name a)) fun x y => y = x ∧ h.tagAt a = .list :=
  g.known is fun tag => (g.readNat_number ha ((numberAt_fields tag rfl).mpr (by decide))).weaken fun _ _ _ done => done.1

theorem first_same : Mirrors h k (LinkedList.first a) (LinkedList.first (v.name a)) fun x y =>
    (y = v.name x ∧ v.blocks x ∧ x = h.ref a 1 ∧ (x ≠ unassigned → h.tagAt x = .listNode)) ∧ h.tagAt a = .list :=
  g.known is fun tag => g.readNat_leads ha tag rfl

theorem last_same : Mirrors h k (LinkedList.last a) (LinkedList.last (v.name a)) fun x y =>
    (y = v.name x ∧ v.blocks x ∧ x = h.ref a 2 ∧ (x ≠ unassigned → h.tagAt x = .listNode)) ∧ h.tagAt a = .list :=
  g.known is fun tag => g.readNat_leads ha tag rfl

/-- All values of a list are read. -/
theorem values_same : Mirrors h k (LinkedList.values a) (LinkedList.values (v.name a)) fun xs ys =>
    ys = xs.map v.name ∧ (∀ x ∈ xs, v.blocks x) ∧ h.tagAt a = .list := by
  refine (g.listLength_same ha is).bind fun _ _ _ => ?_
  rintro ⟨rfl, tag⟩
  refine Mirrors.room.bind fun _ _ _ _ => ?_
  refine (g.first_same ha is).bind fun c _ _ => ?_
  rintro ⟨⟨rfl, hc, -, node⟩, -⟩
  intro xs run
  obtain ⟨ys, run', same, blocks⟩ := g.valuesFrom_same (n := k.capacity + 1) hc node .nothing (by simp) (by simp [g.extent]) xs run
  exact ⟨ys, run', same, blocks, tag⟩

/-- The first node with a value of some kind is looked for. -/
theorem find_same {p p' : Addr → HeapReader Bool}
    (test : ∀ x, v.blocks x → (∀ xs, LinkedList.values a h = .ok xs → x ∈ xs) → Mirrors h k (p x) (p' (v.name x)) fun q q' => q' = q) :
    Mirrors h k (LinkedList.find? a p) (LinkedList.find? (v.name a) p') fun r r' => (r' = r.map v.name ∧
      ∀ d ∈ r, v.blocks d ∧ h.tagAt d = .listNode ∧ ∀ xs, LinkedList.values a h = .ok xs → h.ref d 0 ∈ xs) ∧ h.tagAt a = .list := by
  refine (g.first_same ha is).bind fun c _ first => ?_
  rintro ⟨⟨rfl, hc, -, node⟩, tag⟩
  have all {xs : List Addr} (run : LinkedList.values a h = .ok xs) : LinkedList.valuesFrom c (h.capacity + 1) h = .ok xs := by
    simp only [LinkedList.values, HeapReader.run_bind] at run
    cases length : LinkedList.length a h with
    | error e => simp [length] at run
    | ok n =>
      cases room : expectListable n h with
      | error e => simp [length, room] at run
      | ok _ => simpa [length, room, first, HeapReader.run_itself] using run
  intro r run
  obtain ⟨r', run', same, good⟩ := g.findFrom_same (n := k.capacity + 1) hc node .nothing (by simp) (by simp [g.extent])
    (fun x hx mem => test x hx fun xs run => mem xs (all run)) r run
  exact ⟨r', run', ⟨same, fun d hd => ⟨(good d hd).1, (good d hd).2.1, fun xs run => (good d hd).2.2 xs (all run)⟩⟩, tag⟩

end

section

variable (g : Twins v h k) (ha : v.blocks a) (tag : h.tagAt a = .list)
include g ha tag

/-- An end of a list is moved. -/
theorem edits_end (plain : P a) (hi : i ∈ [1, 2]) (he : v.blocks c) (node : c ≠ unassigned → h.tagAt c = .listNode) :
    Edits P v h k (writeNat a i c) (writeNat (v.name a) i (v.name c)) fun _ _ _ => True := by
  refine g.edits_reference ha plain tag (π := [1, 2]) rfl hi he (fun u leads => ?_) (fun no => by cases no) fun no => by cases no
  have : u = .listNode := by
    rcases List.mem_pair.mp hi with rfl | rfl
    all_goals
      cases leads
      rfl
  exact (em (c = unassigned)).imp_right fun some => this ▸ node some

/-- The length of a list is replaced. -/
theorem edits_length (plain : P a) : Edits P v h k (writeNat a 0 n) (writeNat (v.name a) 0 n) fun _ _ _ => True :=
  g.edits_number ha plain tag (π := [1, 2]) rfl (by decide)

end

/-- A link of a node is replaced. -/
theorem edits_link (g : Twins v h k) (ha : v.blocks a) (tag : h.tagAt a = .listNode) (plain : P a) (hi : i ∈ [0, 1, 2]) (hc : v.blocks c)
    (node : i ≠ 0 → c ≠ unassigned → h.tagAt c = .listNode ∧ (i = 1 → v.rank c < v.rank a) ∧ (i = 2 → v.rank a < v.rank c)) :
    Edits P v h k (writeNat a i c) (writeNat (v.name a) i (v.name c)) fun _ _ _ => True := by
  refine g.edits_reference ha plain tag (π := [0, 1, 2]) rfl hi hc (fun u leads => ?_) ?_ ?_
  · by_cases zero : i = 0
    · subst zero
      cases leads
    · have : u = .listNode := by
        obtain rfl | rfl : i = 1 ∨ i = 2 := by simpa [zero] using hi
        all_goals
          cases leads
          rfl
      exact (em (c = unassigned)).imp_right fun some => this ▸ (node zero some).1
  · rintro - rfl
    exact (em (c = unassigned)).imp_right fun some => (node (by decide) some).2.1 rfl
  · rintro - rfl
    exact (em (c = unassigned)).imp_right fun some => (node (by decide) some).2.2 rfl

/-- A node is taken out of the chain. -/
theorem edits_unlink (g : Twins v h k) (ha : v.blocks a) (tag : h.tagAt a = .list) (hd : v.blocks d) (node : h.tagAt d = .listNode) :
    Edits (fun b => h.tagAt b ≠ .channelRequest) v h k (LinkedList.unlink a d) (LinkedList.unlink (v.name a) (v.name d)) fun _ _ _ => True := by
  have plain : h.tagAt a ≠ .channelRequest := by rw [tag]; decide
  have chained {b : Nat} (is : h.tagAt b = .listNode) : h.tagAt b ≠ .channelRequest := by rw [is]; decide
  refine .read (g.before_same hd node) fun c _ _ => ?_
  rintro ⟨rfl, hc, earlier⟩
  refine .read (g.after_same hd node) fun e _ _ => ?_
  rintro ⟨rfl, he, later⟩
  have finish (h' k' : Heap) (g' : Twins v h' k') (f : Edited (fun b => h.tagAt b ≠ .channelRequest) v h h') :
      Edits (fun b => h.tagAt b ≠ .channelRequest) v h' k'
        (liftM (LinkedList.length a) >>= fun l => liftM (difference l 1) >>= fun l => writeNat a LinkedList.lengthField l)
        (liftM (LinkedList.length (v.name a)) >>= fun l => liftM (difference l 1) >>= fun l => writeNat (v.name a) LinkedList.lengthField l)
        fun _ _ _ => True := by
    have tag' := (f.tag a ha).trans tag
    refine .read (g'.listLength_same ha fun _ => tag') fun _ _ _ => ?_
    rintro ⟨rfl, -⟩
    refine .read Mirrors.difference fun _ _ _ => ?_
    rintro ⟨rfl, -⟩
    exact g'.edits_length ha tag' plain
  -- the link from behind and then the one from before, or else an end of the list
  have behind (h' k' : Heap) (g' : Twins v h' k') (f : Edited (fun b => h.tagAt b ≠ .channelRequest) v h h') :
      Edits (fun b => h.tagAt b ≠ .channelRequest) v h' k'
        (if e = unassigned then writeNat a LinkedList.lastField c >>= fun _ => liftM (LinkedList.length a) >>= fun l =>
          liftM (difference l 1) >>= fun l => writeNat a LinkedList.lengthField l
        else writeNat e LinkedList.beforeField c >>= fun _ => liftM (LinkedList.length a) >>= fun l =>
          liftM (difference l 1) >>= fun l => writeNat a LinkedList.lengthField l)
        (if v.name e = unassigned then writeNat (v.name a) LinkedList.lastField (v.name c) >>= fun _ => liftM (LinkedList.length (v.name a)) >>= fun l =>
          liftM (difference l 1) >>= fun l => writeNat (v.name a) LinkedList.lengthField l
        else writeNat (v.name e) LinkedList.beforeField (v.name c) >>= fun _ => liftM (LinkedList.length (v.name a)) >>= fun l =>
          liftM (difference l 1) >>= fun l => writeNat (v.name a) LinkedList.lengthField l) fun _ _ _ => True := by
    by_cases nil : e = unassigned
    · rw [if_pos nil, if_pos ((g.name_nil he).mpr nil)]
      refine (g'.edits_end ha ((f.tag a ha).trans tag) plain (by decide) hc fun some => (f.tag c hc).trans (earlier some).1).bind
        fun _ _ h'' k'' g'' f' _ => finish h'' k'' g'' (f.trans f')
    · rw [if_neg nil, if_neg (mt (g.name_nil he).mp nil)]
      obtain ⟨is, above⟩ := later nil
      refine (g'.edits_link he ((f.tag e he).trans is) (chained is) (by decide) hc fun _ some => ?_).bind
        fun _ _ h'' k'' g'' f' _ => finish h'' k'' g'' (f.trans f')
      exact ⟨(f.tag c hc).trans (earlier some).1, fun _ => (earlier some).2.trans above, fun no => by cases no⟩
  by_cases nil : c = unassigned
  · have nil' := (g.name_nil hc).mpr nil
    simp only [if_pos nil, if_pos nil']
    exact (g.edits_end ha tag plain (by decide) he fun some => (later some).1).bind fun _ _ h' k' g' f _ => behind h' k' g' f
  · have nil' := mt (g.name_nil hc).mp nil
    simp only [if_neg nil, if_neg nil']
    obtain ⟨is, below⟩ := earlier nil
    refine (g.edits_link hc is (chained is) (by decide) he fun _ some => ?_).bind fun _ _ h' k' g' f _ => behind h' k' g' f
    exact ⟨(later some).1, fun no => absurd no (by decide), fun _ => below.trans (later some).2⟩

/-- The first value of some kind is taken out of a list. -/
theorem edits_takeFirst {p p' : Addr → HeapReader Bool} (g : Twins v h k) (ha : v.blocks a) (is : a ≠ unassigned → h.tagAt a = .list)
    (test : ∀ x, v.blocks x → (∀ xs, LinkedList.values a h = .ok xs → x ∈ xs) → Mirrors h k (p x) (p' (v.name x)) fun q q' => q' = q) :
    Edits (fun b => h.tagAt b ≠ .channelRequest) v h k (LinkedList.takeFirst a p) (LinkedList.takeFirst (v.name a) p') fun _ r r' =>
      r' = r.map v.name ∧ ∀ x ∈ r, v.blocks x ∧ ∀ xs, LinkedList.values a h = .ok xs → x ∈ xs := by
  refine .read (g.find_same ha is test) fun found _ _ => ?_
  rintro ⟨⟨rfl, good⟩, tag⟩
  cases found with
  | none => exact .answer g ⟨rfl, fun _ no => by cases no⟩
  | some d =>
    obtain ⟨hd, node, mem⟩ := good d rfl
    refine .read (g.value_same hd node) fun x _ _ => ?_
    rintro ⟨rfl, hx, rfl⟩
    refine (g.edits_unlink ha tag hd node).bind fun _ _ h' k' g' _ _ => .answer g' ⟨rfl, ?_⟩
    rintro x hx'
    cases hx'
    exact ⟨hx, mem⟩

/-- A value is taken out of a list. -/
theorem edits_remove (g : Twins v h k) (ha : v.blocks a) (is : a ≠ unassigned → h.tagAt a = .list) (hx : v.blocks x) :
    Edits (fun b => h.tagAt b ≠ .channelRequest) v h k (LinkedList.remove a x) (LinkedList.remove (v.name a) (v.name x)) fun _ _ _ => True := by
  refine (g.edits_takeFirst ha is fun y hy _ => .answer ?_).bind fun _ _ _ _ g' _ _ => .answer g' trivial
  rw [Bool.eq_iff_iff, beq_iff_eq, beq_iff_eq]
  exact g.inj hy hx

/-- All values are taken out of a list. -/
theorem edits_clear (g : Twins v h k) (ha : v.blocks a) (tag : h.tagAt a = .list) :
    Edits (fun b => h.tagAt b ≠ .channelRequest) v h k (LinkedList.clear a) (LinkedList.clear (v.name a)) fun _ _ _ => True := by
  have plain : h.tagAt a ≠ .channelRequest := by rw [tag]; decide
  have empty {i : Nat} {h' k' : Heap} (g' : Twins v h' k') (f : Edited (fun b => h.tagAt b ≠ .channelRequest) v h h') (hi : i ∈ [1, 2]) :
      Edits (fun b => h.tagAt b ≠ .channelRequest) v h' k' (writeNat a i unassigned) (writeNat (v.name a) i unassigned) fun _ _ _ => True := by
    have write := g'.edits_end (P := fun b => h.tagAt b ≠ .channelRequest) ha ((f.tag a ha).trans tag) plain hi g'.zero fun no => absurd rfl no
    rwa [g'.nil] at write
  refine (g.edits_length ha tag plain).bind fun _ _ h₁ k₁ g₁ f _ => ?_
  refine (empty g₁ f (by decide)).bind fun _ _ h₂ k₂ g₂ f' _ => ?_
  exact empty g₂ (f.trans f') (by decide)

end Twins

namespace Echoes

theorem createList (g : Twins v h k) : Echoes v h k LinkedList.create LinkedList.create fun v' h' a b => Answers .list v' h' a b :=
  (allocate g (Tag.fits_fields (π := [1, 2]) rfl (by decide)) 0).weaken fun _ _ _ _ done => ⟨done.2.1.new, done.1, done.2.2.is.tag⟩

/-- A value is added at the end of a list. -/
theorem pushList (g : Twins v h k) (q : Answers .list v h a b) (r : Answers t v h x y) :
    Spares [a, x] v h k (LinkedList.pushBack a x) (LinkedList.pushBack b y) fun _ _ _ _ => True := by
  obtain ⟨ha, rfl, tag⟩ := q
  obtain ⟨hx, rfl, -⟩ := r
  have has : ∀ c ∈ [a, x], v.blocks c := by simp [ha, hx]
  have la : h.Live [a, x] a := .extra (by simp)
  -- the new node is above the last one
  refine growing g has ((allocateRooted g has (Tag.fits_fields (π := [0, 1, 2]) rfl (by decide)) (v.rank (h.ref a 2) + 1))) fun c v' h' k' g' adds => ?_
  rintro ⟨⟨-, is, -⟩, -, above⟩
  have tag' := (adds.kept _ la).tagAt.trans tag
  have ha' := adds.old la
  have lx : h.Live [a, x] x := .extra (by simp)
  rw [← adds.name _ la, ← adds.name _ lx]
  refine .read (g'.last_same ha' fun _ => tag') fun l _ _ => ?_
  rintro ⟨⟨rfl, hl, last, node⟩, -⟩
  have below : v'.rank l < v'.rank c := by
    have refers : h.RefersAt a 2 := leadsTo_refers (t := .listNode) (tag ▸ rfl)
    rw [above, last, (adds.kept _ la).ref ((g.laidOut ha).lt_room refers), adds.rank _ (la.child (g.child_of_refers ha refers))]
    exact Nat.lt_succ_self _
  have plain : h'.tagAt a ≠ .channelRequest := by rw [tag']; decide
  have plain' {d : Nat} (is : h'.tagAt d = .listNode) : h'.tagAt d ≠ .channelRequest := by rw [is]; decide
  refine (g'.edits_link adds.new is (plain' is) (by decide) (adds.old lx) fun no => absurd rfl no).bind fun _ _ h₁ k₁ g₁ f₁ _ => ?_
  have is₁ := (f₁.tag c adds.new).trans is
  refine (g₁.edits_link adds.new is₁ (plain' is) (by decide) hl fun _ some => ?_).bind fun _ _ h₂ k₂ g₂ f₂ _ => ?_
  · exact ⟨(f₁.tag l hl).trans (node some), fun _ => below, fun no => absurd no (by decide)⟩
  have f₂ := f₁.trans f₂
  have is₂ := (f₂.tag c adds.new).trans is
  have finish (h₃ k₃ : Heap) (g₃ : Twins v' h₃ k₃) (f₃ : Edited (fun b => h'.tagAt b ≠ .channelRequest) v' h' h₃) :
      Edits (fun b => h'.tagAt b ≠ .channelRequest) v' h₃ k₃
        (writeNat a LinkedList.lastField c >>= fun _ => liftM (LinkedList.length a) >>= fun len => writeNat a LinkedList.lengthField (len + 1))
        (writeNat (v'.name a) LinkedList.lastField (v'.name c) >>= fun _ => liftM (LinkedList.length (v'.name a)) >>= fun len =>
          writeNat (v'.name a) LinkedList.lengthField (len + 1)) fun _ _ _ => True := by
    refine (g₃.edits_end ha' ((f₃.tag a ha').trans tag') plain (by decide) adds.new fun _ => (f₃.tag c adds.new).trans is).bind
      fun _ _ h₄ k₄ g₄ f₄ _ => ?_
    have tag₄ := ((f₃.trans f₄).tag a ha').trans tag'
    refine .read (g₄.listLength_same ha' fun _ => tag₄) fun _ _ _ => ?_
    rintro ⟨rfl, -⟩
    exact g₄.edits_length ha' tag₄ plain
  by_cases nil : l = unassigned
  · have nil' := (g'.name_nil hl).mpr nil
    simp only [if_pos nil, if_pos nil']
    exact (g₂.edits_end ha' ((f₂.tag a ha').trans tag') plain (by decide) adds.new fun _ => is₂).bind
      fun _ _ h₃ k₃ g₃ f₃ _ => finish h₃ k₃ g₃ (f₂.trans f₃)
  · have nil' := mt (g'.name_nil hl).mp nil
    simp only [if_neg nil, if_neg nil']
    refine (g₂.edits_link hl ((f₂.tag l hl).trans (node nil)) (plain' (node nil)) (by decide) adds.new fun _ _ => ?_).bind
      fun _ _ h₃ k₃ g₃ f₃ _ => finish h₃ k₃ g₃ (f₂.trans f₃)
    exact ⟨is₂, fun no => absurd no (by decide), fun _ => below⟩

/-- If a push on a list that may be missing succeeds, the list is there. -/
theorem pushListAt (g : Twins v h k) (ha : v.blocks a) (is : a ≠ unassigned → h.tagAt a = .list) (r : Answers t v h x y) :
    Spares [a, x] v h k (LinkedList.pushBack a x) (LinkedList.pushBack (v.name a) y) fun _ _ _ _ => True := by
  by_cases nil : a = unassigned
  · obtain ⟨hx, rfl, -⟩ := r
    have has : ∀ c ∈ [a, x], v.blocks c := by simp [ha, hx]
    refine growing g has (allocateRooted g has (Tag.fits_fields (π := [0, 1, 2]) rfl (by decide)) 0) fun c v' h' k' g' _ _ => ?_
    exact .read (R := fun _ _ => False) (fun _ run => absurd nil (g'.readNat_nil run)) fun _ _ _ no => no.elim
  · exact pushList g ⟨ha, rfl, is nil⟩ r

end Echoes

end Heap

end FiberMachine
