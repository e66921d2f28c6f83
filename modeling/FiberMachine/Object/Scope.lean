import FiberMachine.Object.Sequence

/-!
# Lexical scopes

A variable lives in a slot of a frame. An environment is the chain of the frames in scope, the
outermost first; it never changes, so entering a scope makes a longer environment. Environments
that share a frame share its variables.

Frame and slot numbers are machine words read as signed, so the largest ones are rejected as
negative positions.
-/

namespace FiberMachine.Scope

open Heap

/-- A machine word read as a signed position. -/
def signed (n : Nat) : Int := (Int64.ofNat n).toInt

/-- A frame of `len` unassigned variables. -/
def newFrame (len : Nat) : HeapM Addr := Sequence.create .frame len

/-- The value in a slot of a frame. -/
def getSlot (frame : Addr) (slot : Nat) : HeapReader Addr := Sequence.get frame (signed slot)

/-- Replace the value in a slot of a frame. -/
def setSlot (frame : Addr) (slot : Nat) (value : Addr) : HeapM Unit :=
  Sequence.set frame (signed slot) value

/-- The values of a frame. -/
def slots (frame : Addr) : HeapReader (List Addr) := Sequence.toList frame

/-- The environment without frames. -/
def newEnvironment : HeapM Addr := Sequence.create .environment 0

/-- The environment with the frames of `env` followed by `frame`. -/
def extend (env frame : Addr) : HeapM Addr := do
  let frames ← Sequence.toList env
  let longer ← withRoots [env, frame] (Sequence.create .environment (frames.length + 1))
  Sequence.setSlots longer 0 (frames ++ [frame])
  return longer

/-- Frame `index` of an environment. -/
def frame (env : Addr) (index : Nat) : HeapReader Addr := Sequence.get env (signed index)

/-- The frames of an environment. -/
def frames (env : Addr) : HeapReader (List Addr) := Sequence.toList env

/-- The value of a variable. -/
def lookup (env : Addr) (index slot : Nat) : HeapReader Addr := do
  getSlot (← frame env index) slot

/-- Give a variable another value. Answers the frame it lives in. -/
def assign (env : Addr) (index slot : Nat) (value : Addr) : HeapM Addr := do
  let target ← frame env index
  setSlot target slot value
  return target

end FiberMachine.Scope
