import FiberMachine.Machine.Variables

/-!
# Arrays, slices and strings

Instructions that make, index, measure, cut and extend collections. A value is copied when it is
stored, except that a slice that grows has its elements moved to the new array as they are.
-/

namespace FiberMachine.Machine

open Heap

/-- `[element...]`: make an array of copies. -/
def execMakeArray (context : Addr) (n : Nat) : MachineM Unit := do
  let elements ← popMany context n
  let elements ← copies elements
  load context (Sequence.arrayOf elements)

/-- `[length]` or `[length, capacity]`: make a slice of zero values. -/
def execMakeSlice (context : Addr) (elem : ValueKind) (hasCap : Bool) : MachineM Unit := do
  let capacity? ← if hasCap then some <$> popInt context else pure none
  let length ← popInt context
  if length < 0 then abort (.invalidLength .sliceLength length.toInt)
  let capacity := capacity?.getD length
  if capacity < length then abort (.invalidLength .sliceCapacity capacity.toInt)
  let size := capacity.toInt.toNat
  let array ← protecting (Sequence.newArray size)
  fillZero array elem 0 size
  load context (Slice.window array 0 length.toInt.toNat)
where
  /-- Fill `n` positions from `i` on. -/
  fillZero (array : Addr) (elem : ValueKind) (i : Nat) : Nat → MachineM Unit
    | 0 => pure ()
    | n + 1 => do
      let value ← zeroValue elem
      Sequence.setSlot array i value
      fillZero array elem (i + 1) n

/-- `[container, index]`: replace both by the element. -/
def execIndex (context : Addr) : MachineM Unit := do
  let index := (← popInt context).toInt
  let container ← pop context
  match ← tag container with
  | .array => push context (← Sequence.get container index)
  | .slice => push context (← Slice.get container index)
  | .string =>
    let byte ← Text.get container index
    load context (Scalar.newInt (Int64.ofNat byte.toNat))
  | found => unexpected container .slice found

/-- Put a value at a position of a container. Answers the array that was written. -/
def storeAt (container : Addr) (index : Int) (value : Addr) : MachineM Addr := do
  match ← tag container with
  | .array =>
    Sequence.set container index value
    return container
  | .slice =>
    Slice.set container index value
    Slice.array container
  | found => unexpected container .slice found

/-- `[container, index, value]`: put a copy of the value at a position. -/
def execStoreIndex (context : Addr) : MachineM Unit := do
  let value ← pop context
  let index := (← popInt context).toInt
  let container ← pop context
  let copy ← Value.copy value
  let written ← storeAt container index copy
  markDirty written copy

/-- `[container]`: replace it by its length. -/
def execLen (context : Addr) : MachineM Unit := do
  let container ← pop context
  let n ← match ← tag container with
    | .array => Sequence.length container
    | .slice => Slice.length container
    | .string => Text.length container
    | .channel => Channel.length container
    | .unassigned => pure 0
    | found => unexpected container .slice found
  load context (Scalar.newInt (Int64.ofNat n))

/-- `[container]`: replace it by its capacity. -/
def execCap (context : Addr) : MachineM Unit := do
  let container ← pop context
  let n ← match ← tag container with
    | .array => Sequence.length container
    | .slice => Slice.capacity container
    | .channel => Channel.capacity container
    | .unassigned => pure 0
    | found => unexpected container .slice found
  load context (Scalar.newInt (Int64.ofNat n))

/-- The string of the bytes between two bounds, which default to 0 and the length. -/
def substring (container : Addr) (low high : Option Int) : HeapM Addr := do
  let bytes ← Text.bytes container
  let low := low.getD 0
  let high := high.getD bytes.length
  Slice.checkBounds low high bytes.length
  Text.ofBytes ((bytes.take high.toNat).drop low.toNat)

/-- `[container, low?, high?]`: replace them by a part of the container. -/
def execSlice (context : Addr) (hasLow hasHigh : Bool) : MachineM Unit := do
  let high ← if hasHigh then some <$> popInt context else pure none
  let low ← if hasLow then some <$> popInt context else pure none
  let low := low.map Int64.toInt
  let high := high.map Int64.toInt
  let container ← pop context
  match ← tag container with
  | .array => load context (Slice.ofArray container low high)
  | .slice => load context (Slice.ofSlice container low high)
  | .string => load context (substring container low high)
  | found => unexpected container .slice found

/-- `[slice, value...]`: replace them by the slice with copies of the values at its end. -/
def execAppend (context : Addr) (argc : Nat) : MachineM Unit := do
  let values ← popMany context argc
  let target ← pop context
  let values ← copies values
  let target ← match ← tag target with
    | .unassigned => protecting Slice.nil
    | .slice => pure target
    | found => unexpected target .slice found
  load context (Slice.append target values)

end FiberMachine.Machine
