import FiberMachine.Decimal.Notation
import FiberMachine.Object.Callable
import FiberMachine.Object.Slice
import FiberMachine.Object.WaitGroup
import FiberMachine.Object.Scalar
import FiberMachine.Unicode.Quoted

/-!
# Values

Assignment copies a value: numbers and truth values get a box of their own, arrays a copy of every
element, and all other kinds are shared. `display` is how a value is printed.
-/

namespace FiberMachine.Value

open Heap

/-- Store the results of `f` on the given values in the slots of `addr` from `i` on, each before the
next is made. -/
def fillSlots (f : Addr → HeapM Addr) (addr : Addr) (i : Nat) : List Addr → HeapM Unit
  | [] => pure ()
  | v :: rest => do
    Sequence.setSlot addr i (← f v)
    fillSlots f addr (i + 1) rest

/-- Copy a value whose arrays are nested less than `n` deep. -/
def copyWithin : Nat → Addr → HeapM Addr
  | 0, addr => throw (.fault (.selfContaining addr))
  | n + 1, addr => do
    match ← tag addr with
    | .int | .float | .bool => duplicate addr
    | .array =>
      let elements ← Sequence.toList addr
      let out ← withRoots [addr] (Sequence.newArray elements.length)
      withRoots [addr, out] (fillSlots (copyWithin n) out 0 elements)
      return out
    | _ => return addr

/-- Copy a value for assignment. Each level of nesting keeps a block of its own alive, so no copy
goes deeper than the arena has words. -/
def copy (addr : Addr) : HeapM Addr := do
  copyWithin ((← get).capacity + 1) addr

/-- How numbers are printed: positionally from 0.0001 up to 21 digits before the point. -/
def floatFormat : FloatFormat where
  lowest := -4
  highest := 21
  pointZero := false
  nan := "NaN"
  infinity := "+Inf"
  negativeInfinity := "-Inf"

/-- Values between square brackets, separated by blanks. -/
def bracketed (parts : List String) : String := "[" ++ " ".intercalate parts ++ "]"

/-- Display a value nested less than `n` deep. -/
def displayWithin : Nat → Addr → HeapReader String
  | 0, addr => throw (.fault (.selfContaining addr))
  | n + 1, addr => do
    match ← tag addr with
    | .unassigned => return "<nil>"
    | .int => return toString (← Scalar.int addr).toInt
    | .float => return floatFormat.write (← Scalar.float addr)
    | .bool => return toString (← Scalar.bool addr)
    | .string => Text.toString addr
    | .array => return bracketed (← (← Sequence.toList addr).mapM (displayWithin n))
    | .slice => return bracketed (← (← Slice.elements addr).mapM (displayWithin n))
    | .channel => return "0x" ++ Quoted.hex addr
    | .func => return s!"func@{← Closure.entry addr}"
    | .method => return "method " ++ (← Text.toString (← Method.name addr))
    | .waitGroup => return "\x7b" ++ toString (← WaitGroup.counter addr).toInt ++ "\x7d"
    | t => return s!"<{t.name}@{addr}>"

/-- A value as it is printed. -/
def display (addr : Addr) : HeapReader String := do
  displayWithin ((← itself).capacity + 1) addr

end FiberMachine.Value
