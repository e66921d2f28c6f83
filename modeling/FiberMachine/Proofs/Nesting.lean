import Mathlib.Logic.Relation
import FiberMachine.Proofs.Ideal.Displaying
import FiberMachine.Proofs.Refinement.Views

/-!
# Nested values

A value can be displayed to some depth exactly if it is nested less deep than that; if that is a fault at any depth then the value contains
itself. Since the values around another one are all different and have their blocks in the arena, a value that does not
contain itself is nested no deeper than there are words in the arena.
-/

namespace FiberMachine

/-- If all that lies in something is less deep, then nothing in it lies in itself. -/
theorem acyclic_of_depth {α : Type} {R : α → α → Prop} {P : Nat → α → Prop} (zero : ∀ r, ¬P 0 r)
    (succ : ∀ n r x, P (n + 1) r → R x r → P n x) {n : Nat} {r x : α} (deep : P n r) (inside : Relation.ReflTransGen R x r) :
    ¬Relation.TransGen R x x := by
  induction n generalizing r with
  | zero => exact absurd deep (zero r)
  | succ n ih =>
    intro cycle
    rcases Relation.ReflTransGen.cases_tail inside with rfl | ⟨y, inside, hy⟩
    · obtain ⟨y, inside, hy⟩ := Relation.TransGen.tail'_iff.mp cycle
      exact ih (succ n _ y deep hy) inside cycle
    · exact ih (succ n r y deep hy) inside cycle

namespace Ideal

variable {F : Prop} {α β : Type} {s : Store} {r x array first stop n m : Nat} {t : Tag} {xs : List Ref}

namespace Store

/-- Nothing that is displayed with the value contains itself. -/
def Founded (s : Store) (r : Ref) : Prop := ∀ x, Relation.ReflTransGen s.Shows x r → ¬Relation.TransGen s.Shows x x

theorem Shallow.founded (shallow : s.Shallow n r) : s.Founded r :=
  fun _ inside => acyclic_of_depth (P := s.Shallow) (fun _ no => no) (fun _ _ x deep shows => deep x shows) shallow inside

end Store

/-! ### Displaying to a depth -/

theorem items_run (ho : s.objects[r]? = some (.sequence t xs)) : items r s = .ok xs s := by
  simp only [items, look, run_bind, ho, Option.bind_some, Obj.items?]
  rfl

/-- What is displayed of a slice. -/
theorem elements_run (typed : s.Typed) (ho : s.objects[r]? = some (.slice array first stop)) :
    ∃ xs, elements r s = .ok xs s ∧ (∀ x ∈ xs, s.Known x) ∧ ∀ x, s.Shows x r ↔ x ∈ xs := by
  obtain ⟨le, n, behind, fits⟩ := typed.good r _ ho
  have shows (x : Ref) : s.Shows x r ↔ ∃ xs, s.objects[array]? = some (.sequence .array xs) ∧ x ∈ (xs.drop first).take (stop - first) := by
    constructor
    · rintro (⟨xs, hxs, _⟩ | ⟨_, _, _, xs, same, hxs, hx⟩)
      · cases ho.symm.trans hxs
      · cases ho.symm.trans same
        exact ⟨xs, hxs, hx⟩
    · rintro ⟨xs, hxs, hx⟩
      exact .inr ⟨array, first, stop, xs, ho, hxs, hx⟩
  obtain ⟨o, nil, tag⟩ := typed.nil
  rcases behind with ⟨rfl, rfl⟩ | ⟨xs, hxs, rfl⟩
  · refine ⟨[], ?_, fun _ no => absurd no List.not_mem_nil, fun x => ⟨fun hx => ?_, fun no => absurd no List.not_mem_nil⟩⟩
    · obtain rfl := Nat.le_zero.mp fits
      obtain rfl := Nat.le_zero.mp le
      simp only [elements, sliceOf, itemsBehind, look, run_bind, ho, Option.bind_some, Obj.slice?, le_refl, if_true, run_pure,
        List.drop_nil, List.take_nil]
      rfl
    · obtain ⟨xs, hxs, _⟩ := (shows x).mp hx
      cases nil.symm.trans hxs
      cases tag
  · have some : array ≠ unassigned := by
      rintro rfl
      cases nil.symm.trans hxs
      cases tag
    refine ⟨(xs.drop first).take (stop - first), ?_, fun x hx => ?_, fun x => ?_⟩
    · simp only [elements, sliceOf, itemsBehind, look, run_bind, ho, Option.bind_some, Obj.slice?, if_pos le, if_neg some, run_pure,
        items_run hxs, if_pos fits]
    · exact typed.items hxs x (List.mem_of_mem_drop (List.mem_of_mem_take hx))
    · refine (shows x).trans ⟨?_, fun hx => ⟨xs, hxs, hx⟩⟩
      rintro ⟨ys, hys, hx⟩
      cases hxs.symm.trans hys
      exact hx

/-- The action answers if `p`, and is a fault otherwise; it changes nothing. -/
def Answers (p : Prop) (m : EStateM Lapse Store α) (s : Store) : Prop :=
  p ∧ (∃ a, m s = .ok a s) ∨ ¬p ∧ m s = .error .fault s

namespace Answers

variable {p q : Prop} {f : StoreM α} {k : α → StoreM β} {a : α}

theorem congr (f' : Answers p f s) (same : p ↔ q) : Answers q f s := by
  rwa [Answers, ← same]

theorem pure (a : α) : Answers True (Pure.pure a) s := .inl ⟨trivial, a, rfl⟩

/-- What is found first. -/
theorem after (run : f s = .ok a s) (next : Answers p (k a) s) : Answers p (f >>= k) s := by
  rw [Answers, run_bind, run]
  exact next

/-- Looking at each of many things, one of which may be a fault. -/
theorem mapM {P : Ref → Prop} {g : Ref → StoreM α} {l : List Ref} (each : ∀ x ∈ l, Answers (P x) (g x) s) :
    Answers (∀ x ∈ l, P x) (l.mapM g) s := by
  induction l with
  | nil => exact .inl ⟨by simp, [], rfl⟩
  | cons x l ih =>
    have rest := ih fun y hy => each y (List.mem_cons_of_mem x hy)
    rw [List.mapM_cons]
    rcases each x List.mem_cons_self with ⟨hx, a, run⟩ | ⟨hx, run⟩
    · refine after run ?_
      rcases rest with ⟨all, as, run⟩ | ⟨other, run⟩
      · refine .inl ⟨List.forall_mem_cons.mpr ⟨hx, all⟩, a :: as, ?_⟩
        rw [run_bind, run]
        rfl
      · refine .inr ⟨fun all => other (List.forall_mem_cons.mp all).2, ?_⟩
        rw [run_bind, run]
    · refine .inr ⟨fun all => hx (List.forall_mem_cons.mp all).1, ?_⟩
      rw [run_bind, run]

end Answers

/-- A value is displayed to a depth exactly if it is nested less deep. -/
theorem displayWithin_answers (typed : s.Typed) (known : s.Known r) : Answers (s.Shallow n r) (displayWithin n r) s := by
  induction n generalizing r with
  | zero => exact .inr ⟨id, rfl⟩
  | succ n ih =>
    obtain ⟨o, ho⟩ := known
    have k : s.IsTag r o.tag := ⟨o, ho, rfl⟩
    have kind : tag r s = .ok o.tag s := by simp only [tag, look, ho, Option.bind_some]
    refine .after kind ?_
    have parts (l : List Ref) (each : ∀ x ∈ l, s.Known x) (shows : ∀ x, s.Shows x r ↔ x ∈ l) :
        Answers (s.Shallow (n + 1) r) (do return bracketed (← l.mapM (displayWithin n))) s := by
      have all : Answers (s.Shallow (n + 1) r) (l.mapM (displayWithin n)) s :=
        (Answers.mapM fun x hx => ih (each x hx)).congr
          ⟨fun all x hx => all x ((shows x).mp hx), fun shallow x hx => shallow x ((shows x).mpr hx)⟩
      rcases all with ⟨shallow, ps, run⟩ | ⟨deep, run⟩
      · refine .inl ⟨shallow, bracketed ps, ?_⟩
        rw [run_bind, run]
        rfl
      · refine .inr ⟨deep, ?_⟩
        rw [run_bind, run]
    -- all other values show nothing besides themselves
    have plain (array : ∀ xs, o ≠ .sequence .array xs) (slice : ∀ a i j, o ≠ .slice a i j) {m : StoreM (Option String)}
        (run : ∃ text, m s = .ok text s) : Answers (s.Shallow (n + 1) r) m s := by
      refine .inl ⟨?_, run⟩
      rintro x (⟨xs, hxs, _⟩ | ⟨a, i, j, _, ha, _⟩)
      · exact absurd (Option.some.inj (ho.symm.trans hxs)) (array xs)
      · exact absurd (Option.some.inj (ho.symm.trans ha)) (slice a i j)
    cases o with
    | slice a i j =>
      obtain ⟨ys, run, known, shows⟩ := elements_run typed ho
      exact .after run (parts ys known shows)
    | sequence t xs =>
      by_cases isArray : t = .array
      · subst isArray
        refine .after (items_run ho) (parts xs (typed.items ho) fun x => ⟨?_, fun hx => .inl ⟨xs, ho, hx⟩⟩)
        rintro (⟨ys, hys, hx⟩ | ⟨_, _, _, _, no, _⟩)
        · cases ho.symm.trans hys
          exact hx
        · cases ho.symm.trans no
      · rcases typed.good r _ ho with ⟨rfl | rfl, _⟩ | ⟨rfl, _⟩
        · exact absurd rfl isArray
        · exact plain (by simp) (by simp) ⟨_, rfl⟩
        · exact plain (by simp) (by simp) ⟨_, rfl⟩
    | number t w =>
      have word : word r s = .ok w s := by simp only [word, look, ho, Option.bind_some, Obj.word?]
      have kinds := typed.good r _ ho
      simp only [Obj.Good, List.mem_cons, List.not_mem_nil, or_false] at kinds
      rcases kinds with rfl | rfl | rfl | rfl
      · exact plain (by simp) (by simp) ⟨_, by simp only [Obj.tag, int, run_bind, word]; rfl⟩
      · exact plain (by simp) (by simp) ⟨_, by simp only [Obj.tag, float, run_bind, word]; rfl⟩
      · exact plain (by simp) (by simp) ⟨_, by simp only [Obj.tag, bool, run_bind, word]; rfl⟩
      · exact plain (by simp) (by simp) ⟨_, rfl⟩
    | text bs => exact plain (by simp) (by simp) ⟨_, by simp only [Obj.tag, bytes, look, run_bind, ho, Option.bind_some, Obj.bytes?]; rfl⟩
    | func c => exact plain (by simp) (by simp) ⟨_, by simp only [Obj.tag, code, look, run_bind, ho, Option.bind_some, Obj.code?]; rfl⟩
    | method receiver name =>
      obtain ⟨_, o, hname, kind⟩ := typed.good r _ ho
      obtain ⟨bs, hbs⟩ := typed.canonical (⟨o, hname, kind⟩ : s.IsTag name .string)
      exact plain (by simp) (by simp)
        ⟨_, by simp only [Obj.tag, methodOf, bytes, look, run_bind, ho, hbs, Option.bind_some, Obj.method?, Obj.bytes?]; rfl⟩
    | waitGroup counter waiters =>
      exact plain (by simp) (by simp) ⟨_, by simp only [Obj.tag, group, look, run_bind, ho, Option.bind_some, Obj.group?]; rfl⟩
    | _ => exact plain (by simp) (by simp) ⟨_, rfl⟩

/-- Displaying changes nothing. -/
theorem displayWithin_still {s' : Store} {text : Option String} (typed : s.Typed) (known : s.Known r)
    (run : displayWithin n r s = .ok text s') : s' = s := by
  obtain ⟨_, _, answer⟩ | ⟨_, fails⟩ := displayWithin_answers typed known (n := n)
  · cases run.symm.trans answer
    rfl
  · cases run.symm.trans fails

/-- Two ways of looking at each of many things. -/
theorem mapM_agree {τ : Type} {t : τ} {f g : Ref → EStateM Lapse τ β} {l : List Ref} (same : ∀ x ∈ l, f x t = g x t)
    (still : ∀ x ∈ l, ∀ b t', f x t = .ok b t' → t' = t) : l.mapM f t = l.mapM g t := by
  induction l with
  | nil => rfl
  | cons x l ih =>
    have rest := ih (fun y hy => same y (List.mem_cons_of_mem x hy)) fun y hy => still y (List.mem_cons_of_mem x hy)
    rw [List.mapM_cons, List.mapM_cons, run_bind, run_bind, ← same x List.mem_cons_self]
    cases first : f x t with
    | error => rfl
    | ok b t' =>
      obtain rfl := still x List.mem_cons_self b t' first
      dsimp only
      rw [run_bind, run_bind, rest]

/-- What is displayed of a value does not depend on the depth if that is enough. -/
theorem displayWithin_agree (typed : s.Typed) (known : s.Known r) (deep : s.Shallow n r) (deeper : s.Shallow m r) :
    displayWithin n r s = displayWithin m r s := by
  induction n generalizing r m with
  | zero => exact deep.elim
  | succ n ih =>
    cases m with
    | zero => exact deeper.elim
    | succ m =>
      obtain ⟨o, ho⟩ := known
      have parts (l : List Ref) (each : ∀ x ∈ l, s.Known x ∧ s.Shows x r) : l.mapM (displayWithin n) s = l.mapM (displayWithin m) s := by
        refine mapM_agree (fun x hx => ih (each x hx).1 (deep x (each x hx).2) (deeper x (each x hx).2)) fun x hx _ _ run =>
          displayWithin_still typed (each x hx).1 run
      have kind : tag r s = .ok o.tag s := by simp only [tag, look, ho, Option.bind_some]
      rw [displayWithin, displayWithin, run_bind, run_bind, kind]
      dsimp only
      cases o with
      | slice a i j =>
        obtain ⟨ys, run, known, shows⟩ := elements_run typed ho
        simp only [Obj.tag, run_bind, run, parts ys fun x hx => ⟨known x hx, (shows x).mpr hx⟩]
      | sequence t xs =>
        by_cases isArray : t = .array
        · subst isArray
          simp only [Obj.tag, run_bind, items_run ho, parts xs fun x hx => ⟨typed.items ho x hx, .inl ⟨xs, ho, hx⟩⟩]
        · rcases typed.good r _ ho with ⟨rfl | rfl, _⟩ | ⟨rfl, _⟩
          · exact absurd rfl isArray
          · rfl
          · rfl
      | number t w =>
        have kinds := typed.good r _ ho
        simp only [Obj.Good, List.mem_cons, List.not_mem_nil, or_false] at kinds
        rcases kinds with rfl | rfl | rfl | rfl <;> rfl
      | _ => rfl

/-- The depth does not matter if it is enough in both cases or in none. -/
theorem displayWithin_depth (typed : s.Typed) (known : s.Known r) (same : s.Shallow n r ↔ s.Shallow m r) :
    displayWithin n r s = displayWithin m r s := by
  rcases displayWithin_answers typed known (n := n) with ⟨deep, _⟩ | ⟨deep, fails⟩
  · exact displayWithin_agree typed known deep (same.mp deep)
  · obtain ⟨deeper, _⟩ | ⟨_, fails'⟩ := displayWithin_answers typed known (n := m)
    · exact absurd (same.mpr deeper) deep
    · rw [fails, fails']

end Ideal

/-! ### The blocks of the values -/

namespace Heap

/-- To display the value `r` is to display `x`, which is an element of it. -/
inductive Displays (h : Heap) (x r : Addr) : Prop
  | array {xs : List Addr} (isArray : tag r h = .ok .array) (items : Sequence.toList r h = .ok xs) (item : x ∈ xs)
  | slice {xs : List Addr} (isSlice : tag r h = .ok .slice) (elements : Slice.elements r h = .ok xs) (element : x ∈ xs)

/-- Nothing that is displayed with the value contains itself. -/
def Printable (h : Heap) (r : Addr) : Prop := ∀ x, Relation.ReflTransGen h.Displays x r → ¬Relation.TransGen h.Displays x x

end Heap

namespace Rep

variable {w : World} {s : Ideal.Store} {h : Heap} {r y a b n : Nat}

/-- What is displayed with a value of the store is displayed with the value in the heap. -/
theorem displays (rep : Rep w s h) (typed : s.Typed) (ha : w.home r a) (shows : s.Shows y r) : ∃ b, w.home y b ∧ h.Displays b a := by
  rcases shows with ⟨xs, ho, hy⟩ | ⟨array, first, stop, xs, ho, hxs, hy⟩
  · obtain ⟨as, read, homes⟩ := (Reads.items rep ha).answer (Ideal.items_run ho)
    obtain ⟨b, hb, home⟩ := related_right homes hy
    exact ⟨b, home, .array (rep.tag_eq ha ho) read hb⟩
  · obtain ⟨ys, run, _, shows⟩ := Ideal.elements_run typed ho
    obtain ⟨as, read, homes⟩ := (Reads.elements rep ha).answer run
    obtain ⟨b, hb, home⟩ := related_right homes ((shows y).mp (.inr ⟨array, first, stop, xs, ho, hxs, hy⟩))
    exact ⟨b, home, .slice (rep.tag_eq ha ho) read hb⟩

/-- The same, however deep it lies in the value. -/
theorem displays_within (rep : Rep w s h) (typed : s.Typed) (ha : w.home r a) (inside : Relation.ReflTransGen s.Shows y r) :
    ∃ b, w.home y b ∧ Relation.ReflTransGen h.Displays b a := by
  induction inside using Relation.ReflTransGen.head_induction_on with
  | refl => exact ⟨a, ha, .refl⟩
  | head shows _ ih =>
    obtain ⟨c, hc, inside⟩ := ih
    obtain ⟨b, hb, displays⟩ := rep.displays typed hc shows
    exact ⟨b, hb, .head displays inside⟩

/-- Nothing in a value of the store contains itself if nothing in the value in the heap does. -/
theorem founded (rep : Rep w s h) (typed : s.Typed) (ha : w.home r a) (printable : h.Printable a) : s.Founded r := by
  intro x inside cycle
  obtain ⟨b, hb, within⟩ := rep.displays_within typed ha inside
  obtain ⟨y, shows, around⟩ := Relation.TransGen.tail'_iff.mp cycle
  obtain ⟨c, hc, displays⟩ := rep.displays typed hb around
  obtain ⟨d, hd, within'⟩ := rep.displays_within typed hc shows
  obtain rfl := rep.single x b d hb hd
  exact printable b within (.tail' within' displays)

/-- A value that does not contain itself is nested no deeper than there are words in the arena: the values around it are all
different, and each has a block there. -/
theorem shallow_around (rep : Rep w s h) (typed : s.Typed) {around : List Addr} (n : Nat) (ha : w.home r a) (founded : s.Founded r)
    (nodup : around.Nodup) (contain : ∀ b ∈ around, ∃ y, w.home y b ∧ Relation.TransGen s.Shows r y)
    (room : w.capacity < n + around.length) : s.Shallow n r := by
  induction n generalizing r a around with
  | zero =>
    have small : ∀ b ∈ around, b ∈ List.range h.capacity := fun b hb => by
      obtain ⟨y, home, _⟩ := contain b hb
      exact List.mem_range.mpr (rep.tidy.sound.lt_capacity (rep.home_allocated home))
    have few := (List.subperm_of_subset nodup small).length_le
    rw [List.length_range, rep.capacity] at few
    exact absurd room (by omega)
  | succ n ih =>
    intro y shows
    obtain ⟨b, hb, _⟩ := rep.displays typed ha shows
    have fresh : a ∉ around := fun old => by
      obtain ⟨x, home, cycle⟩ := contain a old
      obtain ⟨rfl, _⟩ := rep.owner _ _ _ _ _ ha home
      exact founded r .refl cycle
    refine ih hb (fun x inside => founded x (inside.tail shows)) (List.nodup_cons.mpr ⟨fresh, nodup⟩) ?_ ?_
    · intro c hc
      rcases List.mem_cons.mp hc with rfl | old
      · exact ⟨r, ha, .single shows⟩
      · obtain ⟨x, home, inside⟩ := contain c old
        exact ⟨x, home, .head shows inside⟩
    · rw [List.length_cons]
      omega

/-- A value that does not contain itself is nested less deep than the depth to which values are displayed. -/
theorem shallow (rep : Rep w s h) (typed : s.Typed) (ha : w.home r a) (founded : s.Founded r) : s.Shallow (w.capacity + 1) r :=
  rep.shallow_around typed _ ha founded .nil (fun _ no => absurd no List.not_mem_nil) (Nat.lt_succ_self _)

theorem shallow_iff (rep : Rep w s h) (typed : s.Typed) (ha : w.home r a) : s.Shallow (w.capacity + 1) r ↔ s.Founded r :=
  ⟨Ideal.Store.Shallow.founded, rep.shallow typed ha⟩

end Rep

end FiberMachine
