import FiberMachine.Proofs.Duplicates
import FiberMachine.Proofs.Ideal.Copying
import FiberMachine.Proofs.Refinement.Waiting

/-!
# Copies of values

Copying follows the ideal machine. The arrays around a value that is being copied are protected and all
different, so there are fewer of them than words in the arena, and the heap does not run out of depth. A collection
may come between the copies of two elements; the array that they are elements of is protected, so the
elements are still where they were when they were read.
-/

namespace FiberMachine

open Ideal

variable {w w' : World} {s s' : Store} {h h' : Heap} {r v out : Ref} {a b d i k n : Nat} {t : Tag} {o : Obj}
  {xs π : List Ref} {as ps : List Nat}

/-! ### Following the copies -/

/-- One action after another, where it is known how the first one ran. -/
theorem Follows.bind_run {τ σ ε α β γ δ : Type} {lv : Level τ σ ε} {t : τ} {c : σ} {m : EStateM (Failure ε) σ α}
    {n : EStateM Lapse τ β} {Q : World → β → α → Prop} {k : α → EStateM (Failure ε) σ γ} {l : β → EStateM Lapse τ δ}
    {R : World → δ → γ → Prop} {S : β → τ → Prop} (f : Follows lv w t c m n Q) (g : Safe Any n t S)
    (next : ∀ b t' a c' w', lv.rel w' t' c' → Keeps w (lv.store t) w' (lv.store t') → Q w' b a → S b t' →
      Follows lv w' t' c' (k a) (l b) R) :
    Follows lv w t c (m >>= k) (n >>= l) R := by
  unfold Follows at f ⊢
  rw [run_bind, run_bind]
  unfold Safe at g
  generalize m c = x, n t = y at f g ⊢
  cases f with
  | full full => exact .full full
  | ok w' rel keeps q =>
    have g := next _ _ _ _ w' rel keeps q g
    unfold Follows at g
    simp only
    generalize k _ _ = x, l _ _ = y at g ⊢
    cases g with
    | full full => exact .full full
    | ok w'' rel' keeps' q' => exact .ok w'' rel' (keeps.trans keeps') q'
    | error same failed => exact .error same failed
    | fault => exact .fault
    | wild => exact .wild
  | error same failed => exact .error same failed
  | fault => exact .fault
  | wild => exact .wild

/-- Objects that are still there are where they were. -/
theorem Keeps.same {bs : List Nat} (keeps : Keeps w s w' s') (rep : Rep w s h) (homes : List.Forall₂ w.home xs as)
    (homes' : List.Forall₂ w'.home xs bs) : as = bs := by
  induction homes generalizing bs with
  | nil =>
    cases homes'
    rfl
  | cons hx _ ih =>
    cases homes' with
    | cons hy rest =>
      rw [rep.single _ _ _ hx (keeps.old _ _ hy (rep.lt_length hx)), ih rest]

/-- The arrays around a value: protected, all different, and `k` more of them fit into the arena. -/
structure Around (w : World) (s : Store) (π : List Ref) (ps : List Nat) (k : Nat) : Prop where
  held : List.Forall₂ (Held w s) π ps
  nodup : π.Nodup
  fuel : π.length + k = w.capacity + 1

namespace Around

theorem keep (around : Around w s π ps k) (keeps : Keeps w s w' s') : Around w' s' π ps k := by
  refine ⟨around.held.imp fun _ _ held => held.keep keeps, around.nodup, ?_⟩
  rw [keeps.capacity]
  exact around.fuel

theorem rooting (around : Around w s π ps k) {ρ : List Ref} : Around w (s.rooting ρ) π ps k :=
  ⟨around.held.imp fun _ _ held => held.rooting, around.nodup, around.fuel⟩

theorem cons (around : Around w s π ps (k + 1)) (held : Held w s r a) (fresh : r ∉ π) : Around w s (r :: π) (a :: ps) k := by
  refine ⟨.cons held around.held, List.nodup_cons.mpr ⟨fresh, around.nodup⟩, ?_⟩
  have := around.fuel
  rw [List.length_cons]
  omega

/-- Different objects have different addresses in the arena. -/
theorem pos (around : Around w s π ps k) (rep : Rep w s h) : 0 < k := by
  have nodup : ps.Nodup := by
    have homes := around.held.imp fun _ _ held => held.home
    have nodup := around.nodup
    clear around
    induction homes with
    | nil => exact .nil
    | @cons x b xs bs hx rest ih =>
      have ⟨fresh, nodup⟩ := List.nodup_cons.mp nodup
      refine List.nodup_cons.mpr ⟨fun hb => fresh ?_, ih nodup⟩
      obtain ⟨i, hi, eq⟩ := List.mem_iff_getElem.mp hb
      have hi' : i < xs.length := rest.length_eq ▸ hi
      have hy : w.home xs[i] bs[i] := (List.forall₂_iff_get.mp rest).2 i hi' hi
      rw [eq] at hy
      rw [rep.unique hx hy]
      exact List.getElem_mem hi'
  have small : ∀ b ∈ ps, b < w.capacity := by
    intro b hb
    rw [← rep.capacity]
    exact rep.tidy.sound.lt_capacity (rep.homes_allocated (around.held.imp fun _ _ held => held.home) b hb)
  have bound : ps.length ≤ w.capacity := by
    have := (List.subperm_of_subset nodup fun b hb => List.mem_range.mpr (small b hb)).length_le
    rwa [List.length_range] at this
  have := around.fuel
  rw [around.held.length_eq] at this
  omega

end Around

theorem Tracks.duplicate (rep : Rep w s h) (ha : w.home r a) :
    Tracks w s h (Heap.duplicate a) (Ideal.duplicate r) fun w' r' a' => w'.home r' a' := by
  refine .look rep ha fun o t ho ht has => .look rep ha fun o' v ho' hv _ => ?_
  rw [ho] at ho'
  cases ho'
  cases o with
  | number t v =>
    cases ht
    cases hv
    obtain ⟨layout, is, cell⟩ := has
    refine Tracks.make (ρ := [a]) (o := .number t v) rep (by simpa using is.allocated) rfl ?_ fun _ _ home _ => home
    rcases rep.tidy.duplicate is layout with full | ⟨b, h', run, f⟩
    · exact .inl full
    · right
      refine ⟨b, h', [(0, b)], fun _ => b, run, f.evolves, by simp, by simp, rfl, layout, f.is.le is.room, ?_⟩
      exact (f.cells 0 (Nat.lt_of_lt_of_le Nat.one_pos is.room)).trans cell
  | _ => cases hv

/-- The slots of a new array are filled while the array with the originals is protected. -/
theorem Tracks.fillSlots {f : Nat → HeapM Nat} {g : Ref → StoreM Ref} {l : List Ref}
    (each : ∀ {w s h v b}, Around w s π ps k → Rep w s h → w.home v b →
      Tracks w s h (f b) (g v) fun w' x y => w'.home x y)
    (frame : ∀ v s, Safe Any (g v) s fun _ s' => Appends s s') (around : Around w s π ps k) (rep : Rep w s h)
    (hr : Held w s r a) (hd : Held w s out d) (ne : r ≠ out) (object : s.objects[r]? = some (.sequence t (l ++ xs)))
    (homes : List.Forall₂ w.home xs as) :
    Tracks w s h (Value.fillSlots f d i as) (Ideal.fillSlots g out i xs) fun _ _ _ => True := by
  induction xs generalizing w s h l i as with
  | nil =>
    cases homes
    exact .pure rep trivial
  | cons v xs ih =>
    obtain ⟨b, bs, hv, rest, rfl⟩ := List.forall₂_cons_left_iff.mp homes
    refine (each around rep hv).bind_run (frame v s) fun x s₁ y h₁ w₁ rep₁ keeps₁ hx appends => ?_
    have hd₁ := hd.keep keeps₁
    refine (Tracks.setSlot rep₁ hd₁.home hx).bind_run setSlot_frame ?_
    rintro _ s₂ _ h₂ w' rep₂ keeps₂ rfl others
    have keeps := keeps₁.trans keeps₂
    have object₂ := (others r ne).trans (appends r _ object)
    have hr₂ := hr.keep keeps
    obtain ⟨_, all, _, homes'⟩ := rep₂.sequence hr₂.home object₂ (x := (t, l ++ v :: xs)) rfl
    have homes₂ : List.Forall₂ w'.home (v :: xs) (all.drop l.length) := by
      have := List.forall₂_drop l.length homes'
      rwa [List.drop_left] at this
    have same : b :: bs = all.drop l.length := keeps.same rep homes homes₂
    rw [← same] at homes₂
    refine ih (l := l ++ [v]) (around.keep keeps) rep₂ hr₂ (hd.keep keeps) ?_ (List.forall₂_cons.mp homes₂).2
    rw [object₂, List.append_assoc, List.singleton_append]

theorem Tracks.copyWithin (around : Around w s π ps k) (rep : Rep w s h) (ha : w.home r a) :
    Tracks w s h (Value.copyWithin k a) (Ideal.copyWithin n π r) fun w' r' a' => w'.home r' a' := by
  induction n generalizing w s h r a π ps k with
  | zero => exact .wild (u := s) rfl
  | succ n ih =>
    obtain ⟨k, rfl⟩ := Nat.exists_eq_succ_of_ne_zero (around.pos rep).ne'
    refine .read_bind (Reads.tag rep ha) ?_
    rintro t _ rfl
    cases t
    case int | float | bool => exact .duplicate rep ha
    case array =>
      by_cases inside : r ∈ π
      · refine .wild (u := s) ?_
        rw [if_pos inside]
        rfl
      · simp only [if_neg inside]
        rw [items_bind]
        refine .look rep ha fun o x ho hx _ => ?_
        obtain ⟨rfl, as, is, homes⟩ := rep.sequence ha ho hx
        refine .reading (is.toList_eq rep.tidy) ?_
        have made (rep : Rep w (s.rooting [r]) (h.rooting [a])) : Tracks w (s.rooting [r]) (h.rooting [a])
            (Sequence.newArray as.length) (Ideal.newSequence .array (List.replicate x.2.length 0))
            (Makes w (h.rooting [a]) []) := by
          rw [homes.length_eq]
          exact .newSequence rep rfl as.length
        refine (Tracks.withRoots rep (.cons ha .nil) fun rep => made rep).bind_run
          (S := fun q s' => q = s.objects.length ∧ Appends s s') (.withRoots (.add ⟨rfl, appends_push⟩)) ?_
        rintro _ s₁ d h₁ w₁ rep₁ keeps₁ ⟨⟨hd, _⟩, stays⟩ ⟨rfl, appends⟩
        have ha₁ := stays r (by simp) a ha
        have ho₁ := appends r _ ho
        have homes₁ : List.Forall₂ w₁.home x.2 as := by
          obtain ⟨_, bs, _, homes'⟩ := rep₁.sequence ha₁ ho₁ (x := x) rfl
          rwa [← keeps₁.same rep homes homes'] at homes'
        have both : List.Forall₂ w₁.home [r, s.objects.length] [a, d] := .cons ha₁ (.cons hd .nil)
        have around₁ := (around.keep keeps₁).rooting (ρ := [r, s.objects.length])
        have held : Held w₁ (s₁.rooting [r, s.objects.length]) r a := .rooted ha₁ (by simp)
        refine (Tracks.withRoots (Q := fun _ _ _ => True) rep₁ both fun rep => ?_).bind ?_
        · refine .fillSlots (l := []) (t := x.1) (fun around rep ha => ih around rep ha) (fun _ _ => copyWithin_appends)
            (around₁.cons held inside) rep held (.rooted hd (by simp)) (Nat.ne_of_lt (List.getElem?_eq_some_iff.mp ho).1)
            ho₁ homes₁
        · rintro _ s₂ _ h₂ w₂ rep₂ _ ⟨_, stays⟩
          exact .pure rep₂ (stays _ (by simp) d hd)
    all_goals exact .pure rep ha

theorem Tracks.copy (rep : Rep w s h) (ha : w.home r a) :
    Tracks w s h (Value.copy a) (Ideal.copy r) fun w' r' a' => w'.home r' a' := by
  have around : Around w s [] [] (h.capacity + 1) := ⟨.nil, .nil, by rw [List.length_nil, Nat.zero_add, rep.capacity]⟩
  exact (Tracks.copyWithin (n := s.objects.length + 1) around rep ha).congr rfl rfl

end FiberMachine
