import FiberMachine.Object.Scope
import FiberMachine.Proofs.Elsewhere

/-!
# Variables in shared frames

Environments are made from the one without frames, each from another one by a frame at its end, and never change. They share their
frames, so a variable is the same whatever environment it is reached through: a value that is assigned is found through every environment
at the place of that frame, and nothing else is found to have changed. A variable is found if its frame and its slot are in range; both
are machine words that are read as signed, so that the upper half of them is out of range everywhere.
-/

namespace FiberMachine

namespace Scope

/-- What is done to environments and frames, or elsewhere in their heap. -/
inductive Action where
  | newFrame (n : Nat)
  | newEnvironment
  | extend (e f : Addr)
  | lookup (e : Addr) (i t : Nat)
  | assign (e : Addr) (i t : Nat) (v : Addr)
  | setSlot (f : Addr) (t : Nat) (v : Addr)
  | letGo (a : Addr)
  | elsewhere (op : Heap.Operation)

inductive Answer where
  | made (a : Addr)
  | value (v : Addr)
  | written (f : Addr)
  | done

abbrev Event := Action × Except HeapFailure Answer

def Action.run : Action → HeapM Answer
  | .newFrame n => do return .made (← Scope.newFrame n)
  | .newEnvironment => do return .made (← Scope.newEnvironment)
  | .extend e f => do return .made (← Scope.extend e f)
  | .lookup e i t => do return .value (← Scope.lookup e i t)
  | .assign e i t v => do return .written (← Scope.assign e i t v)
  | .setSlot f t v => do return (fun _ => .done) (← Scope.setSlot f t v)
  | .letGo _ => return .done
  | .elsewhere op => do return (fun _ => .done) (← op.run)

/-- The environments and the frames that are held on to. -/
structure Held where
  envs : List Addr
  frames : List Addr

/-- A frame is held on to by itself or by way of an environment. -/
def Held.Frame (held : Held) (h : Heap) (f : Addr) : Prop :=
  f ∈ held.frames ∨ ∃ e ∈ held.envs, ∃ fs, Scope.frames e h = .ok fs ∧ f ∈ fs

/-- What is used is held on to, and what is held on to is in use whenever the collector may run. Frame and slot numbers are machine words.
What is done elsewhere changes neither environments nor frames. -/
def Action.Allowed (h : Heap) (held : Held) : Action → Prop
  | .newFrame _ | .newEnvironment => ∀ b ∈ held.envs ++ held.frames, h.Reachable b
  | .extend e f => e ∈ held.envs ∧ held.Frame h f ∧ ∀ b ∈ held.envs ++ held.frames, h.Live [e, f] b
  | .lookup e i t => e ∈ held.envs ∧ i < 2 ^ 64 ∧ t < 2 ^ 64
  | .assign e i t v => e ∈ held.envs ∧ i < 2 ^ 64 ∧ t < 2 ^ 64 ∧ h.Allocated v
  | .setSlot f t v => held.Frame h f ∧ t < 2 ^ 64 ∧ h.Allocated v
  | .letGo _ => True
  | .elsewhere op => op.Careful h ∧ ∀ b, b ∈ held.envs ∨ held.Frame h b → op.Spares h b

/-- What is held on to after an action. -/
def Action.holds (held : Held) : Action → Except HeapFailure Answer → Held
  | .newFrame _, .ok (.made f) => { held with frames := f :: held.frames }
  | .newEnvironment, .ok (.made e) | .extend _ _, .ok (.made e) => { held with envs := e :: held.envs }
  | .letGo a, _ => ⟨held.envs.filter (· ≠ a), held.frames.filter (· ≠ a)⟩
  | _, _ => held

def client : Heap.Client Held Action Answer where
  run := Action.run
  allowed := Action.Allowed
  learn := Action.holds

def Action.Makes : Action → Prop
  | .newFrame _ | .newEnvironment | .extend _ _ => True
  | _ => False

end Scope

/-- Environments with their frames, frames that are held by themselves, and the values in the slots of frames. -/
structure Scopes where
  env : Addr → Option (List Addr)
  loose : List Addr
  slots : Addr → List Addr

namespace Scopes

def start : Scopes := ⟨fun _ => none, [], fun _ => []⟩

def Frame (σ : Scopes) (f : Addr) : Prop := f ∈ σ.loose ∨ ∃ e fs, σ.env e = some fs ∧ f ∈ fs

/-- An address that is given to nothing yet. -/
structure New (σ : Scopes) (a : Addr) : Prop where
  env : σ.env a = none
  frame : ¬σ.Frame a

/-- The frame of a variable, if there is such a frame and it has such a slot. -/
def locate (σ : Scopes) (fs : List Addr) (i t : Nat) : Except HeapFailure Addr :=
  match fs[i]? with
  | some f =>
    if t < (σ.slots f).length then .ok f
    else .error (.error (.indexOutOfRange (Scope.signed t) (σ.slots f).length))
  | none => .error (.error (.indexOutOfRange (Scope.signed i) fs.length))

def write (σ : Scopes) (f : Addr) (t : Nat) (v : Addr) : Scopes :=
  { σ with slots := Function.update σ.slots f ((σ.slots f).set t v) }

/-- How environments with shared frames answer. -/
inductive Step : Scopes → Scope.Event → Scopes → Prop where
  | frame {σ : Scopes} {n : Nat} {f : Addr} (new : σ.New f) : Step σ (.newFrame n, .ok (.made f))
    { σ with loose := f :: σ.loose, slots := Function.update σ.slots f (List.replicate n unassigned) }
  | environment {σ : Scopes} {e : Addr} (new : σ.New e) : Step σ (.newEnvironment, .ok (.made e))
    { σ with env := Function.update σ.env e (some []) }
  | extended {σ : Scopes} {e e' f : Addr} {fs : List Addr} (held : σ.env e = some fs) (frame : σ.Frame f) (new : σ.New e') :
    Step σ (.extend e f, .ok (.made e')) { σ with env := Function.update σ.env e' (some (fs ++ [f])) }
  | starved {σ : Scopes} {x : Scope.Action} {n : Nat} (makes : x.Makes) : Step σ (x, .error (.error (.outOfMemory n))) σ
  | lookup {σ : Scopes} {e : Addr} {i t : Nat} {fs : List Addr} (held : σ.env e = some fs) :
    Step σ (.lookup e i t, (σ.locate fs i t).map fun f => .value ((σ.slots f).getD t unassigned)) σ
  | assigned {σ : Scopes} {e f v : Addr} {i t : Nat} {fs : List Addr} (held : σ.env e = some fs) (found : σ.locate fs i t = .ok f) :
    Step σ (.assign e i t v, .ok (.written f)) (σ.write f t v)
  | rejected {σ : Scopes} {e v : Addr} {i t : Nat} {fs : List Addr} {x : HeapFailure} (held : σ.env e = some fs)
    (missing : σ.locate fs i t = .error x) : Step σ (.assign e i t v, .error x) σ
  | set {σ : Scopes} {f v : Addr} {t : Nat} (frame : σ.Frame f) (inside : t < (σ.slots f).length) :
    Step σ (.setSlot f t v, .ok .done) (σ.write f t v)
  | unset {σ : Scopes} {f v : Addr} {t : Nat} (frame : σ.Frame f) (outside : (σ.slots f).length ≤ t) :
    Step σ (.setSlot f t v, .error (.error (.indexOutOfRange (Scope.signed t) (σ.slots f).length))) σ
  | dropped {σ : Scopes} {a : Addr} :
    Step σ (.letGo a, .ok .done) { σ with env := Function.update σ.env a none, loose := σ.loose.filter (· ≠ a) }
  | elsewhere {σ : Scopes} {op : Heap.Operation} {r : Except HeapFailure Scope.Answer} : Step σ (.elsewhere op, r) σ

variable {σ : Scopes} {fs : List Addr} {i j t s : Nat} {f g v : Addr}

theorem locate_eq_ok : σ.locate fs i t = .ok f ↔ fs[i]? = some f ∧ t < (σ.slots f).length := by
  unfold locate
  cases fs[i]? with
  | none => simp
  | some g =>
    simp only [Option.some.injEq]
    constructor
    · intro found
      split at found
      next inside =>
        cases found
        exact ⟨rfl, inside⟩
      next => cases found
    · rintro ⟨rfl, inside⟩
      rw [if_pos inside]

/-- Frames keep their lengths, so the same variables are found after a value is written. -/
@[simp] theorem locate_write : (σ.write g s v).locate fs i t = σ.locate fs i t := by
  have length (f : Addr) : ((σ.write g s v).slots f).length = (σ.slots f).length := by
    by_cases eq : f = g
    · subst eq
      simp [write]
    · simp [write, eq]
  simp only [locate, length]

/-- The value of a variable after a value is written. -/
theorem getD_write (inside : t < (σ.slots f).length) :
    ((σ.write g s v).slots f).getD t unassigned = if f = g ∧ t = s then v else (σ.slots f).getD t unassigned := by
  by_cases eq : f = g
  · subst eq
    simp only [write, Function.update_self, true_and, List.getD_eq_getElem?_getD, List.getElem?_set]
    by_cases at_ : s = t
    · subst at_
      simp [inside]
    · rw [if_neg at_, if_neg (Ne.symm at_)]
  · simp [write, eq]

end Scopes

namespace Heap

variable {h h' : Heap} {a b e f i k n s t v : Nat} {xs fs : List Nat} {u : Tag} {σ : Scopes}

/-! ### Words as positions -/

theorem signed_of_lt (low : i < 2 ^ 63) : Scope.signed i = i := Int64.toInt_ofNat_of_lt low

theorem signed_neg (word : i < 2 ^ 64) (high : 2 ^ 63 ≤ i) : Scope.signed i < 0 := by
  rw [Scope.signed, Int64.toInt_ofNat', Int.bmod_def, if_neg]
  all_goals
    have size : ((Int64.size : Nat) : Int) = 2 ^ 64 := rfl
    rw [size]
    omega

/-- A machine word names a position of a sequence if it is in range. -/
theorem IsSeq.position_signed (is : h.IsSeq a u xs) (tidy : h.Tidy) (word : i < 2 ^ 64) : Sequence.position a (Scope.signed i) h =
    if i < xs.length then .ok i else .error (.error (.indexOutOfRange (Scope.signed i) xs.length)) := by
  have small : xs.length < 268435456 := is.small tidy
  rw [is.position_eq tidy]
  by_cases high : 2 ^ 63 ≤ i
  · rw [if_pos (.inl (signed_neg word high)), if_neg (by omega)]
  · rw [signed_of_lt (by omega), Int.toNat_natCast]
    by_cases inside : i < xs.length
    · rw [if_neg (by omega), if_pos inside]
    · rw [if_pos (by omega), if_neg inside]

theorem IsSeq.get_signed (is : h.IsSeq a u xs) (tidy : h.Tidy) (word : i < 2 ^ 64) : Sequence.get a (Scope.signed i) h =
    match xs[i]? with
    | some x => .ok x
    | none => .error (.error (.indexOutOfRange (Scope.signed i) xs.length)) := by
  rw [Sequence.get, HeapReader.run_bind, is.position_signed tidy word]
  by_cases inside : i < xs.length
  · simp only [inside, if_true, is.slot_eq tidy inside, List.getElem?_eq_getElem inside]
  · simp only [inside, if_false, List.getElem?_eq_none (Nat.le_of_not_lt inside)]

theorem IsSeq.set_signed (is : h.IsSeq a u xs) (tidy : h.Tidy) (word : i < 2 ^ 64) (inside : i < xs.length) (hv : h.Allocated v)
    (free : u.fixes 1 = false := by rfl) :
    ∃ h', Sequence.set a (Scope.signed i) v h = .ok () h' ∧ Evolves h h.Allocated h' (· = a) [] ∧ h'.IsSeq a u (xs.set i v) := by
  obtain ⟨h', run, e, is'⟩ := is.setSlot tidy inside hv free
  refine ⟨h', ?_, e, is'⟩
  simp only [Sequence.set, HeapM.run_bind, HeapM.run_lift, is.position_signed tidy word, inside, if_true, run]

theorem IsSeq.set_outside (is : h.IsSeq a u xs) (tidy : h.Tidy) (word : i < 2 ^ 64) (outside : xs.length ≤ i) :
    Sequence.set a (Scope.signed i) v h = .error (.error (.indexOutOfRange (Scope.signed i) xs.length)) h := by
  simp only [Sequence.set, HeapM.run_bind, HeapM.run_lift, is.position_signed tidy word, Nat.not_lt.mpr outside, if_false]

/-! ### Environments in a heap -/

/-- The environments and frames in the heap are the given ones. -/
structure Scoped (h : Heap) (σ : Scopes) : Prop where
  tidy : h.Tidy
  env : ∀ e fs, σ.env e = some fs → h.IsSeq e .environment fs
  frame : ∀ f, σ.Frame f → h.IsSeq f .frame (σ.slots f)

namespace Scoped

theorem frame_of_getElem? (held : σ.env e = some fs) (found : fs[i]? = some f) : σ.Frame f :=
  .inr ⟨e, fs, held, List.mem_of_getElem? found⟩

theorem lookup_eq (c : Scoped h σ) (held : σ.env e = some fs) (hi : i < 2 ^ 64) (ht : t < 2 ^ 64) :
    Scope.lookup e i t h = (σ.locate fs i t).map fun f => (σ.slots f).getD t unassigned := by
  have frame := (c.env e fs held).get_signed c.tidy hi
  cases found : fs[i]? with
  | none =>
    simp only [found] at frame
    simp only [Scope.lookup, Scope.frame, HeapReader.run_bind, frame, Scopes.locate, found]
    rfl
  | some f =>
    simp only [found] at frame
    have slot := (c.frame f (frame_of_getElem? held found)).get_signed c.tidy ht
    simp only [Scope.lookup, Scope.frame, Scope.getSlot, HeapReader.run_bind, frame, slot, Scopes.locate, found]
    by_cases inside : t < (σ.slots f).length
    · simp only [List.getElem?_eq_getElem inside, inside, if_true, Except.map, List.getD_eq_getElem?_getD, Option.getD_some]
    · simp only [List.getElem?_eq_none (Nat.le_of_not_lt inside), inside, if_false, Except.map]

/-- Nothing changes if the blocks stay as they are. -/
theorem kept (c : Scoped h σ) (tidy : h'.Tidy) (envs : ∀ e fs, σ.env e = some fs → Kept h h' e) (frames : ∀ f, σ.Frame f → Kept h h' f) :
    Scoped h' σ where
  tidy := tidy
  env e fs held := (c.env e fs held).kept (envs e fs held)
  frame f known := (c.frame f known).kept (frames f known)

/-- One frame is written to. -/
theorem write (c : Scoped h σ) (known : σ.Frame f) (e : Evolves h h.Allocated h' (· = f) [])
    (is : h'.IsSeq f .frame ((σ.slots f).set t v)) : Scoped h' (σ.write f t v) where
  tidy := e.tidy
  env b fs held := by
    have old := c.env b fs held
    refine old.kept (e.kept b old.is.allocated ?_)
    -- No block is an environment and a frame.
    rintro rfl
    exact absurd (old.is.tag.symm.trans (c.frame b known).is.tag) (by decide)
  frame g known' := by
    by_cases eq : g = f
    · subst eq
      simpa [Scopes.write] using is
    · have old := c.frame g known'
      simpa [Scopes.write, eq] using old.kept (e.kept g old.is.allocated eq)

theorem setSlot_ok (c : Scoped h σ) (known : σ.Frame f) (ht : t < 2 ^ 64) (hv : h.Allocated v) (inside : t < (σ.slots f).length) :
    ∃ h', Scope.setSlot f t v h = .ok () h' ∧ Scoped h' (σ.write f t v) := by
  obtain ⟨h', run, e, is⟩ := (c.frame f known).set_signed c.tidy ht inside hv
  exact ⟨h', run, c.write known e is⟩

theorem assign_ok (c : Scoped h σ) (held : σ.env e = some fs) (hi : i < 2 ^ 64) (ht : t < 2 ^ 64) (hv : h.Allocated v)
    (found : σ.locate fs i t = .ok f) : ∃ h', Scope.assign e i t v h = .ok f h' ∧ Scoped h' (σ.write f t v) := by
  obtain ⟨at_, inside⟩ := Scopes.locate_eq_ok.mp found
  have frame := (c.env e fs held).get_signed c.tidy hi
  simp only [at_] at frame
  obtain ⟨h', run, c'⟩ := c.setSlot_ok (frame_of_getElem? held at_) ht hv inside
  refine ⟨h', ?_, c'⟩
  simp only [Scope.assign, Scope.frame, HeapM.run_bind, HeapM.run_lift, frame, run, HeapM.run_pure]

theorem assign_error {x : HeapFailure} (c : Scoped h σ) (held : σ.env e = some fs) (hi : i < 2 ^ 64) (ht : t < 2 ^ 64)
    (missing : σ.locate fs i t = .error x) : Scope.assign e i t v h = .error x h := by
  have frame := (c.env e fs held).get_signed c.tidy hi
  unfold Scopes.locate at missing
  cases found : fs[i]? with
  | none =>
    simp only [found, Except.error.injEq] at missing frame
    subst missing
    simp only [Scope.assign, Scope.frame, HeapM.run_bind, HeapM.run_lift, frame]
  | some f =>
    simp only [found] at missing frame
    by_cases inside : t < (σ.slots f).length
    · rw [if_pos inside] at missing
      cases missing
    · rw [if_neg inside, Except.error.injEq] at missing
      subst missing
      have outside := (c.frame f (frame_of_getElem? held found)).set_outside (v := v) c.tidy ht (Nat.le_of_not_lt inside)
      simp only [Scope.assign, Scope.frame, Scope.setSlot, HeapM.run_bind, HeapM.run_lift, frame, outside]

/-! ### Making environments and frames -/

theorem addFrame (c : Scoped h σ) (is : h.IsSeq f .frame xs) (new : ¬σ.Frame f) :
    Scoped h { σ with loose := f :: σ.loose, slots := Function.update σ.slots f xs } where
  tidy := c.tidy
  env := c.env
  frame g known := by
    by_cases eq : g = f
    · subst eq
      simpa using is
    · have old : σ.Frame g := known.imp_left fun mem => (List.mem_cons.mp mem).resolve_left eq
      simpa [eq] using c.frame g old

theorem addEnvironment (c : Scoped h σ) (is : h.IsSeq e .environment fs) (known : ∀ f ∈ fs, σ.Frame f) :
    Scoped h { σ with env := Function.update σ.env e (some fs) } where
  tidy := c.tidy
  env b gs held := by
    rcases update_eq_some.mp held with ⟨rfl, here⟩ | ⟨_, there⟩
    · exact Option.some.inj here ▸ is
    · exact c.env b gs there
  frame g reached := c.frame g <| by
    rcases reached with mem | ⟨b, gs, held, mem⟩
    · exact .inl mem
    · rcases update_eq_some.mp held with ⟨rfl, here⟩ | ⟨_, there⟩
      · exact known g (Option.some.inj here ▸ mem)
      · exact .inr ⟨b, gs, there, mem⟩

theorem drop (c : Scoped h σ) : Scoped h { σ with env := Function.update σ.env a none, loose := σ.loose.filter (· ≠ a) } := by
  have old {b : Nat} {gs : List Nat} (held : Function.update σ.env a none b = some gs) : σ.env b = some gs :=
    (update_eq_some.mp held).elim (fun no => nomatch no.2) And.right
  refine ⟨c.tidy, fun b gs held => c.env b gs (old held), fun g known => c.frame g ?_⟩
  exact known.imp List.mem_of_mem_filter fun ⟨b, gs, held, mem⟩ => ⟨b, gs, old held, mem⟩

/-- A longer environment is made of the frames of another one and one more. -/
theorem extend_spec (c : Scoped h σ) (held : σ.env e = some fs) (known : σ.Frame f) : Starved (Scope.extend e f) h [e, f] ∨
    ∃ a h', Scope.extend e f h = .ok a h' ∧ Evolves h (h.Live [e, f]) h' (fun _ => False) [a] ∧ h'.IsSeq a .environment (fs ++ [f]) := by
  have is := c.env e fs held
  have good : ∀ r ∈ [e, f], h.Allocated r := by simp [is.is.allocated, (c.frame f known).is.allocated]
  have live (g : Nat) (hg : g ∈ fs ++ [f]) : h.Live [e, f] g := by
    rcases List.mem_append.mp hg with hg | hg
    · exact .child (.extra (by simp)) (is.child c.tidy hg)
    · exact .extra (by simp [List.mem_singleton.mp hg])
  have eq : Scope.extend e f h = (do
      let longer ← withRoots [e, f] (Sequence.create .environment (fs ++ [f]).length)
      Sequence.setSlots longer 0 (fs ++ [f])
      return longer : HeapM Nat) h := by
    simp only [Scope.extend, HeapM.run_bind, HeapM.run_lift, is.toList_eq c.tidy, List.length_append, List.length_singleton]
  simpa only [Starved, eq] using c.tidy.fillSeq_spec good rfl live (m := do
    let longer ← withRoots [e, f] (Sequence.create .environment (fs ++ [f]).length)
    Sequence.setSlots longer 0 (fs ++ [f])
    return longer) fun _ => rfl

end Scoped

/-! ### Laws of variables -/

/-- What can be seen of environments with shared frames, and what a longer environment and a value that is assigned show. -/
structure ShowsScopes (h : Heap) (σ : Scopes) : Prop where
  frames : ∀ e fs, σ.env e = some fs → Scope.frames e h = .ok fs
  slots : ∀ f, σ.Frame f → Scope.slots f h = .ok (σ.slots f)
  longer : ∀ e fs f, σ.env e = some fs → σ.Frame f → NoMemory (Scope.extend e f) h ∨ ∃ e' h', Scope.extend e f h = .ok e' h' ∧
    e' ≠ e ∧ Scope.frames e' h' = .ok (fs ++ [f]) ∧ Scope.frames e h' = .ok fs
  found : ∀ e fs i t, σ.env e = some fs → i < 2 ^ 64 → t < 2 ^ 64 →
    ((∃ v, Scope.lookup e i t h = .ok v) ↔ ∃ f, fs[i]? = some f ∧ t < (σ.slots f).length)
  assigned : ∀ e fs i t v, σ.env e = some fs → i < 2 ^ 64 → t < 2 ^ 64 → h.Allocated v →
    ((∃ f h', Scope.assign e i t v h = .ok f h') ↔ ∃ f, fs[i]? = some f ∧ t < (σ.slots f).length)
  upper : ∀ e fs i t, σ.env e = some fs → i < 2 ^ 64 → t < 2 ^ 64 → 2 ^ 63 ≤ i ∨ 2 ^ 63 ≤ t →
    (∀ v, Scope.lookup e i t h ≠ .ok v) ∧ ∀ v f h', Scope.assign e i t v h ≠ .ok f h'
  stored : ∀ e fs i f s v, σ.env e = some fs → fs[i]? = some f → s < (σ.slots f).length → h.Allocated v →
    ∃ h', Scope.assign e i s v h = .ok f h' ∧ ∀ e' fs' j t, σ.env e' = some fs' → j < 2 ^ 64 → t < 2 ^ 64 →
      Scope.lookup e' j t h' = if fs'[j]? = some f ∧ t = s then .ok v else Scope.lookup e' j t h

namespace Scoped

/-- Lists in a heap are far shorter than words can count. -/
theorem locate_low (c : Scoped h σ) (held : σ.env e = some fs) (found : σ.locate fs i t = .ok f) : i < 2 ^ 63 ∧ t < 2 ^ 63 := by
  obtain ⟨place, inside⟩ := Scopes.locate_eq_ok.mp found
  obtain ⟨hi, -⟩ := List.getElem?_eq_some_iff.mp place
  have few : fs.length < 268435456 := (c.env e fs held).small c.tidy
  have few' : (σ.slots f).length < 268435456 := (c.frame f (frame_of_getElem? held place)).small c.tidy
  omega

theorem lookup_ok_iff (c : Scoped h σ) (held : σ.env e = some fs) (hi : i < 2 ^ 64) (ht : t < 2 ^ 64) :
    (∃ v, Scope.lookup e i t h = .ok v) ↔ ∃ f, σ.locate fs i t = .ok f := by
  rw [c.lookup_eq held hi ht]
  cases σ.locate fs i t <;> simp [Except.map]

theorem assign_ok_iff (c : Scoped h σ) (held : σ.env e = some fs) (hi : i < 2 ^ 64) (ht : t < 2 ^ 64) (hv : h.Allocated v) :
    (∃ f h', Scope.assign e i t v h = .ok f h') ↔ ∃ f, σ.locate fs i t = .ok f := by
  cases found : σ.locate fs i t with
  | ok f =>
    obtain ⟨h', run, -⟩ := c.assign_ok held hi ht hv found
    simp [run]
  | error x => simp [c.assign_error held hi ht found]

/-- A value that is written is found at its place, and nothing else is found to have changed. -/
theorem lookup_write {g : Nat} (c : Scoped h σ) (c' : Scoped h' (σ.write g s v)) (inside : s < (σ.slots g).length) (held : σ.env e = some fs)
    (hi : i < 2 ^ 64) (ht : t < 2 ^ 64) :
    Scope.lookup e i t h' = if fs[i]? = some g ∧ t = s then .ok v else Scope.lookup e i t h := by
  rw [c'.lookup_eq (show (σ.write g s v).env e = some fs from held) hi ht, c.lookup_eq held hi ht, Scopes.locate_write]
  cases found : σ.locate fs i t with
  | ok f =>
    obtain ⟨place, within⟩ := Scopes.locate_eq_ok.mp found
    simp only [Except.map, Scopes.getD_write within, place, Option.some.injEq]
    split <;> rfl
  | error x =>
    rw [if_neg]
    · rfl
    · rintro ⟨place, rfl⟩
      cases found.symm.trans (Scopes.locate_eq_ok.mpr ⟨place, inside⟩)

theorem shows (c : Scoped h σ) : h.ShowsScopes σ where
  frames e fs held := (c.env e fs held).toList_eq c.tidy
  slots f known := (c.frame f known).toList_eq c.tidy
  longer e fs f held known := by
    refine (c.extend_spec held known).imp Starved.noMemory ?_
    rintro ⟨a, h', run, evolves, is⟩
    have live : h.Live [e, f] e := .extra (by simp)
    refine ⟨a, h', run, ?_, is.toList_eq evolves.tidy, ((c.env e fs held).kept (evolves.kept e live id)).toList_eq evolves.tidy⟩
    rintro rfl
    exact (evolves.new a (List.mem_singleton_self a)).2 live
  found e fs i t held hi ht := by
    rw [c.lookup_ok_iff held hi ht]
    simp only [Scopes.locate_eq_ok]
  assigned e fs i t v held hi ht hv := by
    rw [c.assign_ok_iff held hi ht hv]
    simp only [Scopes.locate_eq_ok]
  upper e fs i t held hi ht high := by
    cases found : σ.locate fs i t with
    | ok f =>
      have := c.locate_low held found
      omega
    | error x => simp [c.lookup_eq held hi ht, c.assign_error held hi ht, found, Except.map]
  stored e fs i f s v held place inside hv := by
    have found := Scopes.locate_eq_ok.mpr ⟨place, inside⟩
    obtain ⟨low, low'⟩ := c.locate_low held found
    obtain ⟨h', run, c'⟩ := c.assign_ok held (by omega) (by omega) hv found
    exact ⟨h', run, fun e' fs' j t held' hj ht => c.lookup_write c' inside held' hj ht⟩

end Scoped

/-! ### Histories -/

/-- What is held on to is what there is. -/
structure Holding (s : Heap × Scope.Held) (σ : Scopes) : Prop where
  envs : Names s.2.envs σ.env
  frames : s.2.frames = σ.loose
  state : Scoped s.1 σ

namespace Holding

variable {s s' : Heap × Scope.Held} {event : Scope.Event}

theorem frame_iff (g : Holding s σ) : s.2.Frame s.1 f ↔ σ.Frame f := by
  rw [Scope.Held.Frame, Scopes.Frame, g.frames]
  refine or_congr_right ⟨?_, ?_⟩
  · rintro ⟨e, he, gs, read, mem⟩
    obtain ⟨fs, held⟩ := g.envs.get he
    rw [Scope.frames, (g.state.env e fs held).toList_eq g.state.tidy, Except.ok.injEq] at read
    exact ⟨e, fs, held, read ▸ mem⟩
  · rintro ⟨e, fs, held, mem⟩
    exact ⟨e, g.envs.mem held, fs, (g.state.env e fs held).toList_eq g.state.tidy, mem⟩

/-- While those that are held on to are in use, all environments and frames outlast an allocation, and a new block is none of them. -/
theorem outlast {held : Scope.Held} {N rs : List Nat} (g : Holding (h, held) σ) (live : ∀ b ∈ held.envs ++ held.frames, h.Live rs b)
    (e : Evolves h (h.Live rs) h' (fun _ => False) N) : Holding (h', held) σ ∧ ∀ a ∈ N, σ.New a := by
  have c := g.state
  have envs (b : Nat) (fs : List Nat) (mine : σ.env b = some fs) : h.Live rs b := live b (List.mem_append_left _ (g.envs.mem mine))
  have frames (f : Nat) (known : σ.Frame f) : h.Live rs f := by
    rcases known with loose | ⟨b, fs, mine, mem⟩
    · exact live f (List.mem_append_right _ (g.frames ▸ loose))
    · exact (envs b fs mine).child ((c.env b fs mine).child c.tidy mem)
  have same : Scoped h' σ := c.kept e.tidy (fun b fs mine => e.kept b (envs b fs mine) id) fun f known => e.kept f (frames f known) id
  refine ⟨⟨g.envs, g.frames, same⟩, fun a ha => ⟨?_, fun known => (e.new a ha).2 (frames a known)⟩⟩
  exact Option.eq_none_iff_forall_ne_some.mpr fun fs mine => (e.new a ha).2 (envs a fs mine)

/-- A step of environments in a heap is a step of environments. -/
theorem step (g : Holding s σ) (step : Scope.client.Step s event s') : ∃ σ', σ.Step event σ' ∧ Holding s' σ' := by
  obtain ⟨h, held⟩ := s
  obtain ⟨h', held'⟩ := s'
  obtain ⟨action, r⟩ := event
  obtain ⟨allowed, ends, learn⟩ := step
  have c := g.state
  have tidy := c.tidy
  cases action with
  | newFrame n =>
    obtain ⟨_, inner, rfl⟩ := ends.inner
    rcases tidy.createSeq_spec (t := .frame) rfl n with ⟨m, h₁, run, e⟩ | ⟨f, h₁, run, e, -, is⟩
    · obtain ⟨rfl, rfl⟩ := inner.of_error run
      cases learn
      exact ⟨σ, .starved trivial, (g.outlast (fun b hb => live_nil.mpr (allowed b hb)) e).1⟩
    · obtain ⟨rfl, rfl⟩ := inner.of_ok run
      cases learn
      obtain ⟨g', new⟩ := g.outlast (fun b hb => live_nil.mpr (allowed b hb)) e
      have new := new f (List.mem_singleton_self f)
      exact ⟨_, .frame new, g.envs, congrArg (f :: ·) g.frames, g'.state.addFrame is new.frame⟩
  | newEnvironment =>
    obtain ⟨_, inner, rfl⟩ := ends.inner
    rcases tidy.createSeq_spec (t := .environment) rfl 0 with ⟨m, h₁, run, e⟩ | ⟨a, h₁, run, e, -, is⟩
    · obtain ⟨rfl, rfl⟩ := inner.of_error run
      cases learn
      exact ⟨σ, .starved trivial, (g.outlast (fun b hb => live_nil.mpr (allowed b hb)) e).1⟩
    · obtain ⟨rfl, rfl⟩ := inner.of_ok run
      cases learn
      obtain ⟨g', new⟩ := g.outlast (fun b hb => live_nil.mpr (allowed b hb)) e
      have c' := g'.state.addEnvironment is fun f hf => absurd hf List.not_mem_nil
      exact ⟨_, .environment (new a (List.mem_singleton_self a)), g.envs.add, g.frames, c'⟩
  | extend e f =>
    obtain ⟨_, inner, rfl⟩ := ends.inner
    obtain ⟨he, mine, live⟩ := allowed
    have known := g.frame_iff.mp mine
    obtain ⟨fs, held⟩ := g.envs.get he
    rcases c.extend_spec held known with ⟨m, h₁, run, e⟩ | ⟨a, h₁, run, e, is⟩
    · obtain ⟨rfl, rfl⟩ := inner.of_error run
      cases learn
      exact ⟨σ, .starved trivial, (g.outlast live e).1⟩
    · obtain ⟨rfl, rfl⟩ := inner.of_ok run
      cases learn
      obtain ⟨g', new⟩ := g.outlast live e
      have parts (b : Nat) (hb : b ∈ fs ++ [f]) : σ.Frame b := by
        rcases List.mem_append.mp hb with hb | hb
        · exact .inr ⟨_, fs, held, hb⟩
        · exact List.mem_singleton.mp hb ▸ known
      exact ⟨_, .extended held known (new a (List.mem_singleton_self a)), g.envs.add, g.frames, g'.state.addEnvironment is parts⟩
  | lookup e i t =>
    obtain ⟨_, inner, rfl⟩ := ends.inner
    obtain ⟨he, hi, ht⟩ := allowed
    obtain ⟨fs, held⟩ := g.envs.get he
    obtain ⟨rfl, rfl⟩ := inner.of_reader
    cases learn
    refine ⟨σ, ?_, g⟩
    rw [c.lookup_eq held hi ht]
    cases found : σ.locate fs i t with
    | ok f => simpa only [found, Except.map] using Scopes.Step.lookup (i := i) (t := t) held
    | error x => simpa only [found, Except.map] using Scopes.Step.lookup (i := i) (t := t) held
  | assign e i t v =>
    obtain ⟨_, inner, rfl⟩ := ends.inner
    obtain ⟨he, hi, ht, hv⟩ := allowed
    obtain ⟨fs, held⟩ := g.envs.get he
    cases found : σ.locate fs i t with
    | ok f =>
      obtain ⟨h₁, run, c'⟩ := c.assign_ok held hi ht hv found
      obtain ⟨rfl, rfl⟩ := inner.of_ok run
      cases learn
      exact ⟨_, .assigned held found, g.envs, g.frames, c'⟩
    | error x =>
      obtain ⟨rfl, rfl⟩ := inner.of_error (c.assign_error held hi ht found)
      cases learn
      exact ⟨σ, .rejected held found, g⟩
  | setSlot f t v =>
    obtain ⟨_, inner, rfl⟩ := ends.inner
    obtain ⟨mine, ht, hv⟩ := allowed
    have known := g.frame_iff.mp mine
    by_cases inside : t < (σ.slots f).length
    · obtain ⟨h₁, run, c'⟩ := c.setSlot_ok known ht hv inside
      obtain ⟨rfl, rfl⟩ := inner.of_ok run
      cases learn
      exact ⟨_, .set known inside, g.envs, g.frames, c'⟩
    · have outside := Nat.le_of_not_lt inside
      obtain ⟨rfl, rfl⟩ := inner.of_error ((c.frame f known).set_outside (v := v) tidy ht outside)
      cases learn
      exact ⟨σ, .unset known outside, g⟩
  | letGo a =>
    obtain ⟨rfl, rfl⟩ : r = .ok .done ∧ h' = h := ends.of_ok rfl
    obtain rfl : held' = ⟨held.envs.filter (· ≠ a), held.frames.filter (· ≠ a)⟩ := learn
    exact ⟨_, .dropped, g.envs.drop, congrArg (List.filter (· ≠ a)) g.frames, c.drop⟩
  | elsewhere op =>
    obtain ⟨_, inner, rfl⟩ := ends.inner
    obtain ⟨careful, spares⟩ := allowed
    obtain ⟨tidy', kept⟩ := careful.ends tidy inner
    cases learn
    refine ⟨σ, .elsewhere, g.envs, g.frames, c.kept tidy' (fun e fs held => ?_) fun f known => ?_⟩
    · exact kept e (c.env e fs held).is.allocated (spares e (.inl (g.envs.mem held)))
    · exact kept f (c.frame f known).is.allocated (spares f (.inr (g.frame_iff.mpr known)))

end Holding

/-- Whatever is done to environments and frames in a tidy heap, those that are held on to answer as environments with shared frames do
after the same, and keep the laws of variables. -/
theorem Tidy.variables_shared {log : List Scope.Event} {held : Scope.Held} (tidy : h.Tidy)
    (steps : Steps Scope.client.Step (h, ⟨[], []⟩) log (h', held)) :
    ∃ σ, Steps Scopes.Step .start log σ ∧ Names held.envs σ.env ∧ held.frames = σ.loose ∧ h'.ShowsScopes σ := by
  have start : Holding (h, ⟨[], []⟩) .start := by
    refine ⟨fun e => by simp [Scopes.start], rfl, tidy, fun e fs no => (nomatch no), fun f known => ?_⟩
    rcases known with no | ⟨e, fs, no, -⟩
    · exact absurd no List.not_mem_nil
    · cases no
  obtain ⟨σ, log, g⟩ := steps.simulate Holding.step start
  exact ⟨σ, log, g.envs, g.frames, g.state.shows⟩

/-- A frame is shared by two environments, a value is assigned through the longer one, and after a collection it is looked up through the
shorter one, where a frame and a slot that are out of range are not found. -/
def sharing : List Scope.Action :=
  [.newFrame 2, .elsewhere (.pushRoot 8), .newEnvironment, .elsewhere (.pushRoot 2), .extend 2 8, .elsewhere (.pushRoot 12), .newFrame 1,
    .elsewhere (.pushRoot 16), .extend 12 16, .elsewhere (.pushRoot 20), .assign 20 0 1 4, .elsewhere .collect, .lookup 12 0 1,
    .lookup 12 1 0, .lookup 12 0 (2 ^ 63)]

theorem Tidy.variables_shared_sharing :
    let told := Scope.client.history (built 128 [.allocateTagged .array 3], ⟨[], []⟩) sharing
    Steps Scope.client.Step (built 128 [.allocateTagged .array 3], ⟨[], []⟩) told.1 told.2 ∧
      ∃ σ, Steps Scopes.Step .start told.1 σ ∧ σ.env 12 = some [8] ∧ σ.env 20 = some [8, 16] ∧ σ.slots 8 = [0, 4] := by
  intro told
  have tidy : (built 128 [.allocateTagged .array 3]).Tidy := tidy_built (by decide) (by decide +kernel) (by decide +kernel)
  have steps : Steps Scope.client.Step (built 128 [.allocateTagged .array 3], ⟨[], []⟩) told.1 told.2 := by
    have still {op : Operation} {g : Heap} {held : Scope.Held} (quiet : ∀ b, ¬op.Changes b) (used : op.Collects →
        g.Rooted (held.envs ++ held.frames) ∧ ∀ e ∈ held.envs, g.Rooted ((Scope.frames e g).toOption.getD [])) :
        ∀ b, b ∈ held.envs ∨ held.Frame g b → op.Spares g b := by
      refine fun b hb => ⟨fun collects => .start ?_, quiet b⟩
      obtain ⟨rooted, inner⟩ := used collects
      rcases hb with hb | hb | ⟨e, he, fs, read, mem⟩
      · exact rooted b (List.mem_append_left _ hb)
      · exact rooted b (List.mem_append_right _ hb)
      · exact inner e he b (by rw [read]; exact mem)
    refine Client.Permits.steps ⟨Rooted.reachable ?_, ⟨(?_ : Heap.Allocated _ 8), still (fun _ => id) False.elim⟩, Rooted.reachable ?_,
      ⟨(?_ : Heap.Allocated _ 2), still (fun _ => id) False.elim⟩, ⟨?_, .inl ?_, Rooted.live ?_⟩,
      ⟨(?_ : Heap.Allocated _ 12), still (fun _ => id) False.elim⟩, Rooted.reachable ?_,
      ⟨(?_ : Heap.Allocated _ 16), still (fun _ => id) False.elim⟩, ⟨?_, .inl ?_, Rooted.live ?_⟩,
      ⟨(?_ : Heap.Allocated _ 20), still (fun _ => id) False.elim⟩, ⟨?_, ?_, ?_, ?_⟩,
      ⟨trivial, still (fun _ => id) fun _ => ?_⟩, ⟨?_, ?_, ?_⟩, ⟨?_, ?_, ?_⟩, ⟨?_, ?_, ?_⟩, trivial⟩
    all_goals decide +kernel
  have found : (Scope.frames 12 told.2.1).toOption = some [8] ∧ (Scope.frames 20 told.2.1).toOption = some [8, 16] ∧
      (Scope.slots 8 told.2.1).toOption = some [0, 4] ∧ told.2.2.envs = [20, 12, 2] := by decide +kernel
  clear_value told
  obtain ⟨log, h', held⟩ := told
  obtain ⟨frames, frames', slots, all⟩ := found
  obtain ⟨σ, related, names, -, shows⟩ := tidy.variables_shared steps
  obtain ⟨fs, short⟩ := names.get (show 12 ∈ held.envs by rw [show held.envs = _ from all]; decide)
  obtain ⟨gs, long⟩ := names.get (show 20 ∈ held.envs by rw [show held.envs = _ from all]; decide)
  rw [shows.frames 12 fs short] at frames
  rw [shows.frames 20 gs long] at frames'
  cases frames
  cases frames'
  rw [shows.slots 8 (.inr ⟨12, [8], short, List.mem_singleton_self 8⟩)] at slots
  exact ⟨steps, σ, related, short, long, Option.some.inj slots⟩

end Heap

end FiberMachine
