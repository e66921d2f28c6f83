import FiberMachine.Proofs.Ideal.Instructions

/-!
# Printing

Displaying a value changes nothing. It comes to an end if the value is not nested too deep, and an address is displayed
only if there is an object in the value that is displayed by its address.
-/

namespace FiberMachine.Ideal

/-- The tags of the objects that are displayed by their addresses. -/
def Tag.Addressed (t : Tag) : Prop :=
  t = .frame ∨ t = .environment ∨ t = .context ∨ t = .channel ∨ t = .channelRequest ∨ t = .callRef

/-- To display `r` is to display `x`, among others. -/
def Store.Shows (s : Store) (x r : Ref) : Prop :=
  (∃ xs, s.objects[r]? = some (.sequence .array xs) ∧ x ∈ xs) ∨
    ∃ array first stop xs, s.objects[r]? = some (.slice array first stop) ∧
      s.objects[array]? = some (.sequence .array xs) ∧ x ∈ (xs.drop first).take (stop - first)

/-- The value is nested less than `n` deep. -/
def Store.Shallow (s : Store) : Nat → Ref → Prop
  | 0, _ => False
  | n + 1, r => ∀ x, s.Shows x r → s.Shallow n x

/-- Something in the value is displayed by its address. -/
def Store.ShowsAddress (s : Store) (r : Ref) : Prop := ∃ b t, Relation.ReflTransGen s.Shows b r ∧ s.IsTag b t ∧ Tag.Addressed t

variable {F : Prop} {s : Store} {r x : Ref} {n : Nat} {xs : List Ref}

namespace Observes

/-- The elements of a slice, each of which is displayed with it. -/
theorem shownElements (typed : s.Typed) (k : s.IsTag r .slice) :
    Observes F (Ideal.elements r) s fun xs => ∀ x ∈ xs, s.Known x ∧ s.Shows x r := by
  obtain ⟨array, first, stop, n, ho, le, fits, behind⟩ := typed.slice k
  refine (sliceOf ho le).bind ?_
  rintro _ rfl
  refine (itemsBehind typed behind).bind fun xs ⟨length, items⟩ => ?_
  simp only
  rw [if_pos (length ▸ fits)]
  refine pure fun x hx => ?_
  rcases items with ⟨_, rfl⟩ | there
  · simp at hx
  · exact ⟨typed.items there x (List.mem_of_mem_drop (List.mem_of_mem_take hx)), .inr ⟨array, first, stop, xs, ho, there, hx⟩⟩

/-- An unknown part makes the whole unknown. -/
theorem bracketed_none {ps : List (Option String)} (none : bracketed ps = none) : Option.none ∈ ps := by
  by_contra all
  have : ∃ ts, ps.mapM id = some ts := by
    clear none
    induction ps with
    | nil => exact ⟨[], rfl⟩
    | cons p rest ih =>
      obtain ⟨ts, eq⟩ := ih fun no => all (List.mem_cons_of_mem _ no)
      cases p with
      | none => exact absurd List.mem_cons_self all
      | some t => exact ⟨t :: ts, by simp [eq]⟩
  obtain ⟨ts, eq⟩ := this
  simp [bracketed, eq] at none

theorem unknown_part {P : Ref → Prop} {ps : List (Option String)} (parts : List.Forall₂ (fun x text => text = none → P x) xs ps)
    (unknown : none ∈ ps) : ∃ x ∈ xs, P x := by
  induction parts with
  | nil => cases unknown
  | cons hx _ ih =>
    rcases List.mem_cons.mp unknown with same | unknown
    · exact ⟨_, List.mem_cons_self, hx same.symm⟩
    · obtain ⟨x, hx, px⟩ := ih unknown
      exact ⟨x, List.mem_cons_of_mem _ hx, px⟩

theorem displayParts {f : Ref → StoreM (Option String)} (part : ∀ x ∈ xs, s.Shows x r)
    (each : ∀ x ∈ xs, Observes F (f x) s fun text => text = none → s.ShowsAddress x) :
    Observes F (do return bracketed (← xs.mapM f)) s fun text => text = none → s.ShowsAddress r := by
  refine Observes.bind (P := fun ps => List.Forall₂ _ xs ps) (Safe.mapM each) fun ps parts => pure fun none => ?_
  have unknown := bracketed_none none
  obtain ⟨x, hx, px⟩ := unknown_part parts unknown
  obtain ⟨b, t, within, tag, addressed⟩ := px
  exact ⟨b, t, within.tail (part x hx), tag, addressed⟩

theorem displayWithin (typed : s.Typed) (known : s.Known r) (deep : F ∨ s.Shallow n r) :
    Observes F (displayWithin n r) s fun text => text = none → s.ShowsAddress r := by
  induction n generalizing r with
  | zero => exact deep.resolve_right id
  | succ n ih =>
    obtain ⟨o, ho⟩ := known
    refine (tag ho).bind ?_
    rintro _ rfl
    have k : s.IsTag r o.tag := ⟨o, ho, rfl⟩
    have shown {text : String} : (some text : Option String) = none → s.ShowsAddress r := nofun
    have parts (xs : List Ref) (each : ∀ x ∈ xs, s.Known x ∧ s.Shows x r) :
        Observes F (do return bracketed (← xs.mapM (Ideal.displayWithin n))) s fun text => text = none → s.ShowsAddress r :=
      displayParts (fun x hx => (each x hx).2) fun x hx => ih (each x hx).1 (deep.imp id fun shallow => shallow x (each x hx).2)
    generalize kind : o.tag = t at k ⊢
    cases t
    case unassigned => exact pure shown
    case int => exact (int typed k).bind fun _ _ => pure shown
    case float => exact (float typed k).bind fun _ _ => pure shown
    case bool => exact (bool typed k).bind fun _ _ => pure shown
    case string => exact (bytes typed k).bind fun _ _ => pure shown
    case array =>
      obtain ⟨xs, there⟩ := typed.canonical k
      refine (items there).bind fun ys same => ?_
      subst same
      exact parts ys fun x hx => ⟨typed.items there x hx, .inl ⟨ys, there, hx⟩⟩
    case slice => exact (shownElements typed k).bind fun ys each => parts ys each
    case func => exact (code typed k).bind fun _ _ => pure shown
    case method => exact (methodOf typed k).bind fun _ ⟨_, name⟩ => (bytes typed name).bind fun _ _ => pure shown
    case waitGroup =>
      obtain ⟨counter, waiters, there⟩ := typed.canonical k
      exact Quiet.look there rfl (pure shown)
    all_goals first
      | exact (typed.canonical k).elim
      | exact pure fun _ => ⟨r, _, .refl, k, by simp [Tag.Addressed]⟩

end Observes

/-- Displaying looks at arrays and slices only. -/
theorem Store.shows_onlyAt {s' : Store} {c : Ref} (k : s.IsTag c .context) (others : s.OnlyAt c s') (k' : s'.IsTag c .context) :
    s'.Shows = s.Shows := by
  have same {q : Ref} {o : Obj} (other : o.tag ≠ .context) : s'.objects[q]? = some o ↔ s.objects[q]? = some o := by
    by_cases e : q = c
    · subst e
      constructor
      · exact fun ho => absurd (IsTag.unique ⟨o, ho, rfl⟩ k') other
      · exact fun ho => absurd (IsTag.unique ⟨o, ho, rfl⟩ k) other
    · rw [others q e]
  have arrays (q : Ref) (xs : List Ref) := same (q := q) (o := .sequence .array xs) Tag.noConfusion
  have slices (q array : Ref) (first stop : Nat) := same (q := q) (o := .slice array first stop) Tag.noConfusion
  funext x r
  simp only [Store.Shows, arrays, slices]

theorem Store.showsAddress_onlyAt {s' : Store} {c : Ref} (k : s.IsTag c .context) (others : s.OnlyAt c s') (k' : s'.IsTag c .context)
    (shows : s'.ShowsAddress r) : s.ShowsAddress r := by
  obtain ⟨b, t, within, ⟨o, ho, tag⟩, addressed⟩ := shows
  rw [shows_onlyAt k others k'] at within
  by_cases e : b = c
  · subst e
    exact ⟨b, .context, within, k, by simp [Tag.Addressed]⟩
  · exact ⟨b, t, within, ⟨o, others b e ▸ ho, tag⟩, addressed⟩

theorem Store.shallow_onlyAt {s' : Store} {c : Ref} (k : s.IsTag c .context) (others : s.OnlyAt c s') (k' : s'.IsTag c .context)
    (shallow : s.Shallow n r) : s'.Shallow n r := by
  have same := shows_onlyAt k others k'
  induction n generalizing r with
  | zero => exact shallow
  | succ n ih => exact fun x hx => ih (shallow x (same ▸ hx))

/-- None of many things is unknown. -/
theorem mapM_id_isSome {α : Type} {ps : List (Option α)} (all : none ∉ ps) : (ps.mapM id).isSome := by
  induction ps with
  | nil => rfl
  | cons p rest ih =>
    have rest := ih fun no => all (List.mem_cons_of_mem _ no)
    cases p with
    | none => exact absurd List.mem_cons_self all
    | some t =>
      obtain ⟨ts, eq⟩ := Option.isSome_iff_exists.mp rest
      simp [eq]

namespace Engine.Quiet

variable {e : Engine} {c : Ref}

/-- What is printed is known unless an address is displayed; the values that are printed are the top operands. -/
theorem execPrint (active : Active e.store c) (depth argc : Nat) (newline : Bool) (room : F ∨ argc * 8 < hostLimit)
    (deep : ∀ rest xs, xs.length = argc → e.store.Operands c (rest ++ xs) → ∀ x ∈ xs, F ∨ e.store.Shallow depth x) :
    Safe (Admits F) (execPrint depth c argc newline) e fun _ e' =>
      Calm e.store e'.store ∧ e'.scheduler = e.scheduler ∧ e'.nextId = e.nextId ∧ (e.output.isSome → e'.output = none →
        ∃ rest xs, xs.length = argc ∧ e.store.Operands c (rest ++ xs) ∧ ∃ x ∈ xs, e.store.ShowsAddress x) := by
  refine Safe.bind (popMany active argc room) ?_
  rintro xs e₁ ⟨calm, beside, known, ⟨length, rest, before, _⟩, others⟩
  have k := active.isContext
  have k' := (active.keep calm).isContext
  have each (x : Ref) (hx : x ∈ xs) : Safe (Admits F) (displayWithin depth x : EngineM (Option String)) e₁ fun text e' =>
      e' = e₁ ∧ (text = none → e.store.ShowsAddress x) := by
    have deep := (deep rest xs length before x hx).imp id (Store.shallow_onlyAt k others k')
    refine safe_store (Safe.weaken (Observes.displayWithin calm.typed (known x hx) deep) ?_)
    rintro text _ ⟨rfl, address⟩
    exact ⟨rfl, fun none => Store.showsAddress_onlyAt k others k' (address none)⟩
  refine Safe.bind (Safe.mapM each) fun ps e₂ ⟨same, parts⟩ => ?_
  obtain rfl : e₁ = e₂ := same.symm
  refine ⟨calm, beside.scheduler, beside.nextId, fun given unknown => ?_⟩
  obtain ⟨before', output⟩ := Option.isSome_iff_exists.mp given
  have missing : none ∈ ps := by
    by_contra all
    obtain ⟨ts, eq⟩ := Option.isSome_iff_exists.mp (mapM_id_isSome all)
    simp [beside.output, output, eq] at unknown
  exact ⟨rest, xs, length, before, Observes.unknown_part parts missing⟩

end Engine.Quiet

end FiberMachine.Ideal
