import FiberMachine.Instruction.Basic

/-!
# Assembling programs

An assembler emits instructions one after the other. A label stands for a position that may be
known only later: it is bound to the position of the next instruction, and each use of it is noted
and filled in when the program is finished. Finishing fails if a used label was never bound or if
an instruction names a position outside the program.
-/

namespace FiberMachine

/-- Why a program cannot be finished. -/
inductive AssemblyError where
  | unboundLabel (label : Nat)
  | targetOutOfRange (pc target : Nat)
  deriving DecidableEq

/-- The text shown for an error. -/
def AssemblyError.message : AssemblyError → String
  | .unboundLabel label => s!"label {label} was never bound"
  | .targetOutOfRange pc target =>
    s!"instruction {pc} jumps to {target}, past the end of the program"

/-- A program under construction. -/
structure Assembler where
  code : Array Instruction
  /-- The position each label is bound to, if it is. -/
  labels : Array (Option Nat)
  /-- The instructions whose target is a label, in the order in which they were emitted. -/
  uses : Array (Nat × Nat)

namespace Assembler

/-- The empty program. -/
def empty : Assembler := ⟨#[], #[], #[]⟩

/-- The position of the next instruction. -/
def pc (a : Assembler) : Nat := a.code.size

/-- Add an instruction. -/
def emit (a : Assembler) (i : Instruction) : Assembler := { a with code := a.code.push i }

/-- The number of the next label. -/
def nextLabel (a : Assembler) : Nat := a.labels.size

/-- Make a label. -/
def label (a : Assembler) : Assembler := { a with labels := a.labels.push none }

/-- Bind a label to the position of the next instruction. -/
def bind (a : Assembler) (label : Nat) : Assembler :=
  { a with labels := a.labels.setIfInBounds label (some a.pc) }

/-- Make a label that is bound to the position of the next instruction. -/
def here (a : Assembler) : Assembler := a.label.bind a.nextLabel

/-- Add an instruction whose target is a label. -/
def emitTo (a : Assembler) (i : Instruction) (label : Nat) : Assembler :=
  { a.emit i with uses := a.uses.push (a.pc, label) }

def jump (a : Assembler) (label : Nat) : Assembler := a.emitTo (.jump 0) label

def jumpIfFalse (a : Assembler) (label : Nat) : Assembler := a.emitTo (.jumpIfFalse 0) label

def jumpIfTrue (a : Assembler) (label : Nat) : Assembler := a.emitTo (.jumpIfTrue 0) label

def loadFunc (a : Assembler) (entry : Nat) (params : List String) : Assembler :=
  a.emitTo (.loadFunc 0 params) entry

def selectSend (a : Assembler) (label : Nat) : Assembler := a.emitTo (.selectSend 0) label

def selectRecv (a : Assembler) (label : Nat) (name : String) : Assembler :=
  a.emitTo (.selectRecv 0 name) label

def select (a : Assembler) (cases : Nat) (default? : Option Nat) : Assembler :=
  match default? with
  | some label => a.emitTo (.select cases (some 0)) label
  | none => a.emit (.select cases none)

def enterScope (a : Assembler) (names : List String) : Assembler := a.emit (.enterScope names)

def loadDefault (a : Assembler) (kind : ValueKind) : Assembler := a.emit (.loadDefault kind)

/-- Fill in the targets of the given uses. -/
def resolve (labels : Array (Option Nat)) :
    List (Nat × Nat) → Array Instruction → Except AssemblyError (Array Instruction)
  | [], code => .ok code
  | (pc, label) :: rest, code =>
    match (labels[label]?).join with
    | none => .error (.unboundLabel label)
    | some target => resolve labels rest (code.modify pc (·.retarget target))

/-- Check that the instructions from position `pc` on name no position from `stop` on. -/
def checkTargets (stop pc : Nat) : List Instruction → Except AssemblyError Unit
  | [] => .ok ()
  | i :: rest =>
    match i.targets.find? (stop ≤ ·) with
    | some target => .error (.targetOutOfRange pc target)
    | none => checkTargets stop (pc + 1) rest

/-- The finished program. -/
def build (a : Assembler) : Except AssemblyError (Array Instruction) := do
  let code ← resolve a.labels a.uses.toList a.code
  checkTargets code.size 0 code.toList
  return code

theorem pc_emit (a : Assembler) (i : Instruction) : (a.emit i).pc = a.pc + 1 := by simp [emit, pc]

theorem pc_emitTo (a : Assembler) (i : Instruction) (label : Nat) :
    (a.emitTo i label).pc = a.pc + 1 := by simp [emitTo, emit, pc]

end Assembler

end FiberMachine
