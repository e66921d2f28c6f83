import FiberMachine.Assembler
import Mathlib.Data.List.Basic

/-!
# Labels

A program is assembled by a sequence of calls, most of which add an instruction. What the instruction of a call is in the finished program
is said here by the call alone, given the positions of the labels; and the position of a label is the number of instructions that were
added before it was bound. Nothing is said about drafts that are filled in later. Finishing gives exactly this program, and fails at the
first label that has no position or else at the first instruction that names a position outside the program.
-/

namespace FiberMachine.Assembler

variable {a : Assembler} {l n p stop : Nat} {i : Instruction} {code : Array Instruction} {labels : Array (Option Nat)}

/-- A call of the assembler. Labels are numbered in the order in which they are made. -/
inductive Call where
  | label
  | bind (label : Nat)
  | here
  | emit (i : Instruction)
  | jump (label : Nat)
  | jumpIfFalse (label : Nat)
  | jumpIfTrue (label : Nat)
  | loadFunc (entry : Nat) (params : List String)
  | selectSend (label : Nat)
  | selectRecv (label : Nat) (name : String)
  | select (cases : Nat) (default? : Option Nat)
  | enterScope (names : List String)
  | loadDefault (kind : ValueKind)

namespace Call

/-- What the call does. -/
def apply (a : Assembler) : Call → Assembler
  | label => a.label
  | bind l => a.bind l
  | here => a.here
  | emit i => a.emit i
  | jump l => a.jump l
  | jumpIfFalse l => a.jumpIfFalse l
  | jumpIfTrue l => a.jumpIfTrue l
  | loadFunc l params => a.loadFunc l params
  | selectSend l => a.selectSend l
  | selectRecv l name => a.selectRecv l name
  | select cases default? => a.select cases default?
  | enterScope names => a.enterScope names
  | loadDefault kind => a.loadDefault kind

/-- The call makes a label. -/
def makes : Call → Bool
  | label | here => true
  | _ => false

/-- The call adds an instruction. -/
def emits : Call → Bool
  | label | bind _ | here => false
  | _ => true

/-- The label that the call takes for a target. -/
def uses : Call → Option Nat
  | jump l | jumpIfFalse l | jumpIfTrue l | loadFunc l _ | selectSend l | selectRecv l _ | select _ (some l) => some l
  | _ => none

/-- The instruction of the call in a program in which the labels have the given positions. -/
def instruction (position : Nat → Nat) : Call → Option Instruction
  | label | bind _ | here => none
  | emit i => some i
  | jump l => some (.jump (position l))
  | jumpIfFalse l => some (.jumpIfFalse (position l))
  | jumpIfTrue l => some (.jumpIfTrue (position l))
  | loadFunc l params => some (.loadFunc (position l) params)
  | selectSend l => some (.selectSend (position l))
  | selectRecv l name => some (.selectRecv (position l) name)
  | select cases default? => some (.select cases (default?.map position))
  | enterScope names => some (.enterScope names)
  | loadDefault kind => some (.loadDefault kind)

/-- The position of a used label is the only one that the instruction names. -/
theorem targets_instruction {call : Call} (uses : call.uses = some l) (position : Nat → Nat) :
    ∃ i, call.instruction position = some i ∧ i.targets = [position l] := by
  cases call with
  | label | bind | here | emit | enterScope | loadDefault => cases uses
  | select cases default? =>
    cases default? with
    | none => cases uses
    | some l =>
      cases uses
      exact ⟨_, rfl, rfl⟩
  | _ =>
    cases uses
    exact ⟨_, rfl, rfl⟩

end Call

variable {calls before after : List Call} {call : Call} {position : Nat → Nat}

/-! ### What is said about a program -/

/-- The assembler after the calls. -/
def assemble (calls : List Call) : Assembler := calls.foldl Call.apply empty

/-- The number of labels that the calls make. -/
def made (calls : List Call) : Nat := calls.countP Call.makes

/-- The number of instructions that the calls add. -/
def emitted (calls : List Call) : Nat := calls.countP Call.emits

/-- The labels that are used, in the order of the instructions. -/
def used (calls : List Call) : List Nat := calls.filterMap Call.uses

/-- After the calls `before`, the call binds the label. -/
def Binds (before : List Call) (call : Call) (l : Nat) : Prop := call = .bind l ∨ call = .here ∧ l = made before

/-- The calls bind the label when `p` instructions have been added. -/
def BoundAt (calls : List Call) (l p : Nat) : Prop :=
  ∃ before call after, calls = before ++ call :: after ∧ Binds before call l ∧ emitted before = p

/-- The calls bind the label. -/
def Bound (calls : List Call) (l : Nat) : Prop := ∃ p, BoundAt calls l p

/-- After the calls `before`, the labels that the call uses or binds are there, and a label that it binds has not been bound. -/
structure Allowed (before : List Call) (call : Call) : Prop where
  uses : ∀ l ∈ call.uses, l < made before
  binds : ∀ l, call = .bind l → l < made before ∧ ¬Bound before l

/-- The calls use and bind labels that were made before, and bind none of them twice. -/
inductive Sound : List Call → Prop
  | nil : Sound []
  | snoc {before : List Call} {call : Call} (sound : Sound before) (allowed : Allowed before call) : Sound (before ++ [call])

/-- The program that the calls describe. -/
def program (calls : List Call) (position : Nat → Nat) : List Instruction := calls.filterMap (Call.instruction position)

/-- The used labels have these positions. -/
def Places (calls : List Call) (position : Nat → Nat) : Prop := ∀ l ∈ used calls, BoundAt calls l (position l)

/-! ### The labels -/

theorem boundAt_nil : ¬BoundAt [] l p := by
  rintro ⟨before, call, after, eq, -⟩
  simp at eq

theorem boundAt_snoc : BoundAt (before ++ [call]) l p ↔ BoundAt before l p ∨ Binds before call l ∧ emitted before = p := by
  constructor
  · rintro ⟨first, c, after, eq, binds, position⟩
    rcases List.eq_nil_or_concat' after with rfl | ⟨rest, last, rfl⟩
    · obtain ⟨rfl, same⟩ := List.append_inj' eq rfl
      cases same
      exact .inr ⟨binds, position⟩
    · rw [← List.cons_append, ← List.append_assoc] at eq
      obtain ⟨rfl, -⟩ := List.append_inj' eq rfl
      exact .inl ⟨first, c, rest, rfl, binds, position⟩
  · rintro (⟨first, c, after, rfl, binds, position⟩ | ⟨binds, position⟩)
    · exact ⟨first, c, after ++ [call], by simp, binds, position⟩
    · exact ⟨before, call, [], rfl, binds, position⟩

theorem assemble_snoc : assemble (before ++ [call]) = call.apply (assemble before) := by simp [assemble]

theorem made_snoc : made (before ++ [call]) = made before + if call.makes then 1 else 0 := by
  simp [made, List.countP_append, List.countP_singleton]

theorem emitted_snoc : emitted (before ++ [call]) = emitted before + if call.emits then 1 else 0 := by
  simp [emitted, List.countP_append, List.countP_singleton]

theorem used_snoc : used (before ++ [call]) = used before ++ call.uses.toList := by
  cases uses : call.uses <;> simp [used, uses]

theorem program_snoc : program (before ++ [call]) position = program before position ++ (call.instruction position).toList := by
  cases found : call.instruction position <;> simp [program, found]

/-! ### Drafts -/

/-- Fill in the target of one use. -/
def patch (position : Nat → Nat) (code : Array Instruction) (u : Nat × Nat) : Array Instruction :=
  code.modify u.1 (·.retarget (position u.2))

/-- The instruction of a call from its draft. -/
def Call.finish (call : Call) (position : Nat → Nat) (i : Instruction) : Instruction :=
  call.uses.elim i fun l => i.retarget (position l)

/-- A call that adds an instruction adds a draft of it, and notes the label that it uses. -/
theorem Call.apply_emits (emits : call.emits = true) (a : Assembler) :
    ∃ i, (∀ position, call.instruction position = some (call.finish position i)) ∧
      call.apply a = ⟨a.code.push i, a.labels, a.uses ++ (call.uses.map (a.pc, ·)).toArray⟩ := by
  cases call with
  | label | bind | here => cases emits
  | select cases default? => cases default? <;> exact ⟨_, fun _ => rfl, rfl⟩
  | _ => exact ⟨_, fun _ => rfl, rfl⟩

/-- What the fields of the assembler have to do with the calls. -/
structure Describes (a : Assembler) (calls : List Call) : Prop where
  size : a.code.size = emitted calls
  labels : a.labels.size = made calls
  bound : ∀ l p, a.labels[l]?.join = some p ↔ BoundAt calls l p
  uses : a.uses.toList.map Prod.snd = used calls
  inside : ∀ u ∈ a.uses.toList, u.1 < a.code.size
  /-- Filling in the targets gives the program. -/
  patched : ∀ position, (a.uses.toList.foldl (patch position) a.code).toList = program calls position

theorem size_patched (us : List (Nat × Nat)) : (us.foldl (patch position) code).size = code.size := by
  induction us generalizing code with
  | nil => rfl
  | cons u us ih =>
    rw [List.foldl_cons, ih]
    exact Array.size_modify

/-- Uses are of earlier instructions. -/
theorem patched_push {us : List (Nat × Nat)} (inside : ∀ u ∈ us, u.1 < code.size) :
    us.foldl (patch position) (code.push i) = (us.foldl (patch position) code).push i := by
  induction us generalizing code with
  | nil => rfl
  | cons u us ih =>
    have here : u.1 < code.size := inside u (by simp)
    have first : patch position (code.push i) u = (patch position code u).push i := by
      refine Array.ext_getElem? fun j => ?_
      grind [patch]
    rw [List.foldl_cons, List.foldl_cons, first]
    refine ih fun v hv => ?_
    rw [patch, Array.size_modify]
    exact inside v (List.mem_cons_of_mem _ hv)

theorem patch_last (size : code.size = n) : patch position (code.push i) (n, l) = code.push (i.retarget (position l)) := by
  refine Array.ext_getElem? fun j => ?_
  grind [patch]

namespace Describes

theorem empty : Describes empty [] where
  size := rfl
  labels := rfl
  bound _ _ := ⟨nofun, fun bound => (boundAt_nil bound).elim⟩
  uses := rfl
  inside := nofun
  patched _ := rfl

variable (describes : Describes a before)
include describes

theorem emits (emits : call.emits = true) : Describes (call.apply a) (before ++ [call]) := by
  obtain ⟨i, finished, eq⟩ := call.apply_emits emits a
  have makes : call.makes = false := by cases call <;> first | rfl | cases emits
  have binds (l : Nat) : ¬Binds before call l := by rintro (rfl | ⟨rfl, -⟩) <;> cases emits
  rw [eq]
  refine ⟨?_, ?_, fun l p => ?_, ?_, fun u hu => ?_, fun position => ?_⟩
  · simp [emitted_snoc, emits, describes.size]
  · simp [made_snoc, makes, describes.labels]
  · simp [boundAt_snoc, binds, describes.bound]
  · cases uses : call.uses <;> simp [used_snoc, uses, describes.uses]
  · rw [Array.size_push]
    rcases (by simpa using hu : u ∈ a.uses ∨ ∃ l, call.uses = some l ∧ (a.pc, l) = u) with old | ⟨l, -, rfl⟩
    · exact Nat.lt_succ_of_lt (describes.inside u old.val)
    · exact Nat.lt_succ_self _
  · have filled : (a.uses ++ (call.uses.map (a.pc, ·)).toArray).toList.foldl (patch position) (a.code.push i) =
        (a.uses.toList.foldl (patch position) a.code).push (call.finish position i) := by
      rw [Array.toList_append, List.foldl_append, patched_push describes.inside]
      cases uses : call.uses with
      | none => simp [Call.finish, uses]
      | some l => simpa [Call.finish, uses, pc] using patch_last (size_patched a.uses.toList)
    rw [filled, Array.toList_push, describes.patched, program_snoc, finished]
    rfl

/-- A call that adds no instruction changes only the labels. -/
theorem silent {labels : Array (Option Nat)} (quiet : call.emits = false) (size : labels.size = made (before ++ [call]))
    (bound : ∀ l p, labels[l]?.join = some p ↔ a.labels[l]?.join = some p ∨ Binds before call l ∧ a.pc = p) :
    Describes { a with labels := labels } (before ++ [call]) := by
  have uses : call.uses = none := by cases call <;> first | rfl | cases quiet
  have instruction (position : Nat → Nat) : call.instruction position = none := by cases call <;> first | rfl | cases quiet
  refine ⟨?_, size, fun l p => ?_, ?_, describes.inside, fun position => ?_⟩
  · simp [emitted_snoc, quiet, describes.size]
  · rw [bound, boundAt_snoc, describes.bound, ← describes.size]
    rfl
  · simp [used_snoc, uses, describes.uses]
  · simpa [program_snoc, instruction] using describes.patched position

theorem label : Describes (Call.label.apply a) (before ++ [.label]) := by
  refine describes.silent rfl (by simp [made_snoc, Call.makes, describes.labels]) fun l p => ?_
  have binds : ¬Binds before .label l := by simp [Binds]
  simp only [binds, false_and, or_false, Array.getElem?_push]
  split
  next last => simp [last]
  next => rfl

theorem bind (inside : l < made before) (once : ¬Bound before l) : Describes ((Call.bind l).apply a) (before ++ [.bind l]) := by
  refine describes.silent rfl (by simp [made_snoc, Call.makes, describes.labels]) fun k p => ?_
  have unbound : a.labels[l]?.join = none := Option.eq_none_iff_forall_ne_some.mpr fun p found => once ⟨p, (describes.bound l p).mp found⟩
  have binds : Binds before (.bind l) k ↔ l = k := by simp [Binds]
  rw [Array.getElem?_setIfInBounds, binds]
  by_cases same : l = k
  · subst same
    rw [unbound]
    simp [describes.labels, inside]
  · simp [same]

theorem here : Describes (Call.here.apply a) (before ++ [.here]) := by
  refine describes.silent rfl (by simp [made_snoc, Call.makes, describes.labels, Assembler.label]) fun l p => ?_
  have binds : Binds before .here l ↔ made before = l := by simp [Binds, eq_comm]
  have fresh : a.nextLabel = made before := describes.labels
  rw [Array.getElem?_setIfInBounds, binds, fresh]
  by_cases same : made before = l
  · subst same
    simp [Assembler.label, describes.labels, Assembler.pc]
  · simp only [Assembler.label, same, false_and, or_false, if_false, Array.getElem?_push, describes.labels, Ne.symm same]

end Describes

theorem Sound.describes (sound : Sound calls) : Describes (assemble calls) calls := by
  induction sound with
  | nil => exact .empty
  | @snoc before call _ allowed ih =>
    rw [assemble_snoc]
    cases call with
    | label => exact ih.label
    | bind l =>
      obtain ⟨inside, once⟩ := allowed.binds l rfl
      exact ih.bind inside once
    | here => exact ih.here
    | _ => exact ih.emits rfl

theorem Sound.position_eq {q : Nat} (sound : Sound calls) (first : BoundAt calls l p) (second : BoundAt calls l q) : p = q :=
  Option.some_inj.mp (((sound.describes.bound l p).mpr first).symm.trans ((sound.describes.bound l q).mpr second))

/-! ### Finishing -/

/-- The first use of a label without a position fails; if there is none, all targets are filled in. -/
theorem resolve_eq (us : List (Nat × Nat)) (code : Array Instruction) :
    resolve labels us code = match us.find? fun u => labels[u.2]?.join.isNone with
      | some u => .error (.unboundLabel u.2)
      | none => .ok (us.foldl (patch fun l => (labels[l]?.join).getD 0) code) := by
  induction us generalizing code with
  | nil => rfl
  | cons u us ih =>
    rw [resolve, List.find?_cons]
    cases found : labels[u.2]?.join with
    | none => rfl
    | some target =>
      simp only [Option.isNone_some]
      rw [ih]
      simp [patch, found]

/-- An instruction names one position at most. -/
theorem find_target {t : Nat} : i.targets.find? (stop ≤ ·) = some t ↔ t ∈ i.targets ∧ stop ≤ t := by
  obtain none | ⟨k, one⟩ : i.targets = [] ∨ ∃ k, i.targets = [k] := by
    cases i with
    | select _ default? => cases default? <;> simp [Instruction.targets]
    | _ => simp [Instruction.targets]
  · simp [none]
  · rw [one, List.find?_singleton, List.mem_singleton]
    grind

/-- The check finds the first instruction that names a position from `stop` on. -/
theorem checkTargets_error {is : List Instruction} {e : AssemblyError} : checkTargets stop n is = .error e ↔
    ∃ first i rest t, is = first ++ i :: rest ∧ (∀ j ∈ first, ∀ k ∈ j.targets, k < stop) ∧ t ∈ i.targets ∧ stop ≤ t ∧
      e = .targetOutOfRange (n + first.length) t := by
  induction is generalizing n with
  | nil => simp [checkTargets]
  | cons i is ih =>
    rw [checkTargets]
    cases found : i.targets.find? (stop ≤ ·) with
    | some t =>
      obtain ⟨names, outside⟩ := find_target.mp found
      constructor
      · intro failed
        cases failed
        exact ⟨[], i, is, t, rfl, nofun, names, outside, rfl⟩
      · rintro ⟨first, j, rest, u, eq, inside, namesToo, outsideToo, rfl⟩
        cases first with
        | nil =>
          cases eq
          cases found.symm.trans (find_target.mpr ⟨namesToo, outsideToo⟩)
          rfl
        | cons k first =>
          cases eq
          exact absurd (inside i (by simp) t names) (Nat.not_lt.mpr outside)
    | none =>
      have inside (k : Nat) (hk : k ∈ i.targets) : k < stop := by simpa using List.find?_eq_none.mp found k hk
      simp only [ih]
      constructor
      · rintro ⟨first, j, rest, u, rfl, before, names, outside, rfl⟩
        refine ⟨i :: first, j, rest, u, rfl, ?_, names, outside, by simp; omega⟩
        simpa using ⟨inside, before⟩
      · rintro ⟨first, j, rest, u, eq, before, names, outside, rfl⟩
        cases first with
        | nil =>
          cases eq
          exact absurd (inside u names) (Nat.not_lt.mpr outside)
        | cons k first =>
          cases eq
          exact ⟨first, j, rest, u, rfl, fun m hm => before m (List.mem_cons_of_mem _ hm), names, outside, by simp; omega⟩

theorem checkTargets_ok {is : List Instruction} : checkTargets stop n is = .ok () ↔ ∀ i ∈ is, ∀ k ∈ i.targets, k < stop := by
  induction is generalizing n with
  | nil => simp [checkTargets]
  | cons i is ih =>
    rw [checkTargets, List.forall_mem_cons]
    split
    next t found =>
      obtain ⟨names, outside⟩ := find_target.mp found
      exact ⟨nofun, fun inside => absurd (inside.1 t names) (Nat.not_lt.mpr outside)⟩
    next none =>
      have inside : ∀ k ∈ i.targets, k < stop := by simpa using List.find?_eq_none.mp none
      rw [ih]
      exact ⟨fun rest => ⟨inside, rest⟩, And.right⟩

theorem build_eq (a : Assembler) : a.build = match a.uses.toList.find? fun u => a.labels[u.2]?.join.isNone with
    | some u => .error (.unboundLabel u.2)
    | none =>
      let code := a.uses.toList.foldl (patch fun l => (a.labels[l]?.join).getD 0) a.code
      (checkTargets code.size 0 code.toList).map fun _ => code := by
  rw [build, resolve_eq]
  cases a.uses.toList.find? fun u => a.labels[u.2]?.join.isNone with
  | some u => rfl
  | none =>
    simp only
    generalize a.uses.toList.foldl (patch fun l => (a.labels[l]?.join).getD 0) a.code = code
    show (checkTargets code.size 0 code.toList >>= fun _ => pure code) = _
    cases checkTargets code.size 0 code.toList <;> rfl

section
variable (sound : Sound calls)
include sound

theorem Sound.isNone_label : (assemble calls).labels[l]?.join.isNone = true ↔ ¬Bound calls l := by
  rw [Option.isNone_iff_eq_none, Option.eq_none_iff_forall_ne_some]
  exact ⟨fun none ⟨p, bound⟩ => none p ((sound.describes.bound l p).mpr bound),
    fun unbound p found => unbound ⟨p, (sound.describes.bound l p).mp found⟩⟩

/-- Finishing fails at the first use of a label that is not bound. -/
theorem Sound.build_unbound {first rest : List Nat} (eq : used calls = first ++ l :: rest) (bound : ∀ k ∈ first, Bound calls k)
    (unbound : ¬Bound calls l) : (assemble calls).build = .error (.unboundLabel l) := by
  have uses := sound.describes.uses
  rw [eq, List.map_eq_append_iff] at uses
  obtain ⟨us, vs, all, rfl, more⟩ := uses
  obtain ⟨u, ws, rfl, rfl, rfl⟩ := List.map_eq_cons_iff.mp more
  have found : (assemble calls).uses.toList.find? (fun u => (assemble calls).labels[u.2]?.join.isNone) = some u := by
    refine List.find?_eq_some_iff_append.mpr ⟨sound.isNone_label.mpr unbound, us, ws, all, fun v hv => ?_⟩
    rw [Bool.not_eq_true', ← Bool.not_eq_true, sound.isNone_label, not_not]
    exact bound v.2 (List.mem_map_of_mem hv)
  rw [build_eq, found]

/-- If the used labels have positions then finishing checks the program. -/
theorem Sound.build_placed (places : Places calls position) : (assemble calls).build =
    (checkTargets (program calls position).length 0 (program calls position)).map fun _ => (program calls position).toArray := by
  have describes := sound.describes
  have use {u : Nat × Nat} (hu : u ∈ (assemble calls).uses.toList) : BoundAt calls u.2 (position u.2) :=
    places u.2 (describes.uses ▸ List.mem_map_of_mem hu)
  have resolved : (assemble calls).uses.toList.find? (fun u => (assemble calls).labels[u.2]?.join.isNone) = none :=
    List.find?_eq_none.mpr fun u hu => by
      rw [sound.isNone_label, not_not]
      exact ⟨_, use hu⟩
  have filled : (assemble calls).uses.toList.foldl (patch fun l => ((assemble calls).labels[l]?.join).getD 0) (assemble calls).code =
      (program calls position).toArray := by
    rw [← describes.patched position, Array.toArray_toList]
    refine List.foldl_ext _ _ _ fun code u hu => ?_
    rw [patch, patch, (describes.bound _ _).mpr (use hu)]
    rfl
  rw [build_eq, resolved]
  simp only [filled, List.size_toArray]

theorem Sound.build_ok (places : Places calls position) : (assemble calls).build = .ok code ↔ code.toList = program calls position ∧
    ∀ i ∈ program calls position, ∀ t ∈ i.targets, t < (program calls position).length := by
  rw [sound.build_placed places, ← checkTargets_ok (n := 0)]
  cases checkTargets (program calls position).length 0 (program calls position) with
  | error e => simp [Except.map]
  | ok =>
    have same : (program calls position).toArray = code ↔ code.toList = program calls position :=
      ⟨fun eq => eq ▸ rfl, fun eq => eq ▸ code.toArray_toList⟩
    simp [Except.map, same]

theorem Sound.build_error (places : Places calls position) {e : AssemblyError} : (assemble calls).build = .error e ↔
    ∃ first i rest t, program calls position = first ++ i :: rest ∧
      (∀ j ∈ first, ∀ k ∈ j.targets, k < (program calls position).length) ∧
      t ∈ i.targets ∧ (program calls position).length ≤ t ∧ e = .targetOutOfRange first.length t := by
  have checked : checkTargets (program calls position).length 0 (program calls position) = .error e ↔ _ := checkTargets_error
  simp only [Nat.zero_add] at checked
  rw [sound.build_placed places, ← checked]
  cases checkTargets (program calls position).length 0 (program calls position) <;> simp [Except.map]

end

/-- The first element without a property. -/
theorem all_or_first (P : Nat → Prop) (ls : List Nat) :
    (∀ l ∈ ls, P l) ∨ ∃ first l rest, ls = first ++ l :: rest ∧ (∀ k ∈ first, P k) ∧ ¬P l := by
  induction ls with
  | nil => exact .inl nofun
  | cons l ls ih =>
    by_cases here : P l
    · rcases ih with all | ⟨first, k, rest, rfl, before, stop⟩
      · exact .inl (by simpa using ⟨here, all⟩)
      · exact .inr ⟨l :: first, k, rest, rfl, by simpa using ⟨here, before⟩, stop⟩
    · exact .inr ⟨[], l, ls, rfl, nofun, here⟩

theorem Sound.exists_places (sound : Sound calls) (bound : ∀ l ∈ used calls, Bound calls l) : ∃ position, Places calls position := by
  refine ⟨fun l => ((assemble calls).labels[l]?.join).getD 0, fun l hl => ?_⟩
  obtain ⟨p, here⟩ := bound l hl
  show BoundAt calls l (((assemble calls).labels[l]?.join).getD 0)
  rw [(sound.describes.bound l p).mpr here]
  exact here

theorem Sound.build_cases (sound : Sound calls) :
    (∃ position, Places calls position) ∧ (∀ l ∈ used calls, Bound calls l) ∨
      ∃ first l rest, used calls = first ++ l :: rest ∧ (∀ k ∈ first, Bound calls k) ∧ ¬Bound calls l ∧
        (assemble calls).build = .error (.unboundLabel l) := by
  rcases all_or_first (Bound calls) (used calls) with all | ⟨first, l, rest, eq, bound, unbound⟩
  · exact .inl ⟨sound.exists_places all, all⟩
  · exact .inr ⟨first, l, rest, eq, bound, unbound, sound.build_unbound eq bound unbound⟩

/-- Whether the assembler has the labels of the call, and a label that is to be bound has no position. -/
def Call.fits (a : Assembler) (call : Call) : Bool :=
  (call.uses.all fun l => decide (l < a.labels.size)) && match call with
    | .bind l => decide (a.labels[l]? = some none)
    | _ => true

/-- Whether each of the calls fits when it is made. -/
def fit (a : Assembler) : List Call → Bool
  | [] => true
  | call :: rest => call.fits a && fit (call.apply a) rest

theorem Sound.append (sound : Sound before) (fits : fit (assemble before) after = true) : Sound (before ++ after) := by
  induction after generalizing before with
  | nil => rwa [List.append_nil]
  | cons call rest ih =>
    obtain ⟨here, later⟩ := Bool.and_eq_true_iff.mp fits
    obtain ⟨uses, binds⟩ := Bool.and_eq_true_iff.mp here
    have size := sound.describes.labels
    have allowed : Allowed before call := by
      refine ⟨fun l hl => ?_, ?_⟩
      · rw [Option.mem_def.mp hl] at uses
        exact size ▸ of_decide_eq_true uses
      · rintro l rfl
        have unset : (assemble before).labels[l]? = some none := of_decide_eq_true binds
        exact ⟨size ▸ (Array.getElem?_eq_some_iff.mp unset).1, sound.isNone_label.mp (by rw [unset]; rfl)⟩
    have more := ih (.snoc sound allowed) (by rwa [assemble_snoc])
    rwa [List.append_assoc] at more

/-- Finishing resolves all labels. For every sequence of calls that use and bind labels made before, and bind none twice: it succeeds if and
only if every used label is bound and every position that an instruction names, wherever it comes from, is in the program; then the code has
one instruction for each call that adds one, the used labels replaced by the numbers of instructions added before they were bound. Otherwise
the error is the first use of a label that is not bound, and if there is none, the first instruction with a target outside the program. -/
theorem labels_resolve {calls : List Call} (sound : Sound calls) :
    (∀ l p q, BoundAt calls l p → BoundAt calls l q → p = q) ∧
    ((∃ code, (assemble calls).build = .ok code) ↔ (∀ l ∈ used calls, Bound calls l) ∧
      ∀ position, Places calls position → ∀ i ∈ program calls position, ∀ t ∈ i.targets, t < (program calls position).length) ∧
    (∀ code, (assemble calls).build = .ok code → ∃ position, Places calls position ∧ code.toList = program calls position ∧
      ∀ call ∈ calls, ∀ l, call.uses = some l → ∃ i, call.instruction position = some i ∧ i.targets = [position l]) ∧
    (∀ l, (assemble calls).build = .error (.unboundLabel l) ↔
      ∃ first rest, used calls = first ++ l :: rest ∧ (∀ k ∈ first, Bound calls k) ∧ ¬Bound calls l) ∧
    ∀ pc t, (assemble calls).build = .error (.targetOutOfRange pc t) ↔ ∃ position, Places calls position ∧
      ∃ first i rest, program calls position = first ++ i :: rest ∧ first.length = pc ∧
        (∀ j ∈ first, ∀ k ∈ j.targets, k < (program calls position).length) ∧
        t ∈ i.targets ∧ (program calls position).length ≤ t := by
  refine ⟨fun l p q => sound.position_eq, ?_⟩
  rcases sound.build_cases with ⟨⟨position, places⟩, bound⟩ | ⟨first, l, rest, eq, bound, unbound, failed⟩
  · refine ⟨⟨?_, ?_⟩, ?_, fun l => ⟨?_, ?_⟩, fun pc t => ⟨?_, ?_⟩⟩
    · rintro ⟨code, built⟩
      exact ⟨bound, fun other places => ((sound.build_ok places).mp built).2⟩
    · rintro ⟨-, inside⟩
      exact ⟨(program calls position).toArray, (sound.build_ok places).mpr ⟨rfl, inside position places⟩⟩
    · intro code built
      exact ⟨position, places, ((sound.build_ok places).mp built).1, fun call _ l uses => Call.targets_instruction uses position⟩
    · intro failed
      obtain ⟨_, _, _, _, _, _, _, _, no⟩ := (sound.build_error places).mp failed
      cases no
    · rintro ⟨first, rest, eq, -, unbound⟩
      exact (unbound (bound l (by simp [eq]))).elim
    · intro failed
      obtain ⟨first, i, rest, t', eq, inside, names, outside, same⟩ := (sound.build_error places).mp failed
      cases same
      exact ⟨position, places, first, i, rest, eq, rfl, inside, names, outside⟩
    · rintro ⟨other, places, first, i, rest, eq, rfl, inside, names, outside⟩
      exact (sound.build_error places).mpr ⟨first, i, rest, t, eq, inside, names, outside, rfl⟩
  · have missing : ¬∀ l ∈ used calls, Bound calls l := fun all => unbound (all l (by simp [eq]))
    have misplaced {position : Nat → Nat} (places : Places calls position) : False := missing fun k hk => ⟨_, places k hk⟩
    rw [failed]
    refine ⟨⟨fun ⟨_, no⟩ => (nomatch no), fun all => (missing all.1).elim⟩, nofun, fun k => ⟨?_, ?_⟩, fun pc t => ?_⟩
    · intro same
      cases same
      exact ⟨first, rest, eq, bound, unbound⟩
    · rintro ⟨first', rest', eq', bound', unbound'⟩
      exact failed.symm.trans (sound.build_unbound eq' bound' unbound')
    · exact ⟨nofun, fun ⟨_, places, _⟩ => (misplaced places).elim⟩

/-- Jumps back to a label that is bound and on to one that is not yet. -/
def loop : List Call := [.here, .label, .emit (.loadBool true), .jumpIfFalse 1, .jump 0, .bind 1, .emit .done]

theorem sound_loop : Sound loop := (Sound.nil.append (by decide) : Sound ([] ++ loop))

/-- The labels of the loop have one position each. -/
theorem places_loop : Places loop position ↔ position 0 = 0 ∧ position 1 = 3 := by
  have used : used loop = [1, 0] := rfl
  have first (p : Nat) : BoundAt loop 0 p ↔ 0 = p := (sound_loop.describes.bound 0 p).symm.trans Option.some_inj
  have second (p : Nat) : BoundAt loop 1 p ↔ 3 = p := (sound_loop.describes.bound 1 p).symm.trans Option.some_inj
  simp [Places, used, first, second, eq_comm, and_comm]

/-- The loop is finished, with the positions of the two labels in the jumps. -/
theorem labels_resolve_loop :
    ∃ code, (assemble loop).build = .ok code ∧ code.toList = [.loadBool true, .jumpIfFalse 3, .jump 0, .done] := by
  obtain ⟨-, ok, resolved, -⟩ := labels_resolve sound_loop
  have eq {position : Nat → Nat} (places : Places loop position) :
      program loop position = [.loadBool true, .jumpIfFalse 3, .jump 0, .done] := by
    obtain ⟨first, second⟩ := places_loop.mp places
    show ([.loadBool true, .jumpIfFalse (position 1), .jump (position 0), .done] : List Instruction) = _
    rw [first, second]
  have places : Places loop fun l => 3 * l := places_loop.mpr ⟨rfl, rfl⟩
  obtain ⟨code, built⟩ := ok.mpr ⟨fun l hl => ⟨_, places l hl⟩, fun _ places => eq places ▸ by decide⟩
  obtain ⟨position, found, same, -⟩ := resolved code built
  exact ⟨code, built, same.trans (eq found)⟩

end FiberMachine.Assembler
