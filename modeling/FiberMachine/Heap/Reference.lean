import FiberMachine.Heap.Basic

/-!
# References between blocks

Which payload words of a block are references depends only on its tag. `Tag.layout` states it for
every kind of object; the collector follows exactly these words.

| object         | payload words                                                        |
|----------------|----------------------------------------------------------------------|
| string         | length, characters                                                   |
| frame, environment, array | length, then that many references                         |
| slice          | array, first position, position after the last                       |
| stack          | length, items                                                        |
| queue          | position of the oldest, length, items                                |
| list           | length, first node, last node                                        |
| list node      | value, previous node, next node                                      |
| context        | program counter, operands, return stack, environment, blocked, wait-list, id |
| channel        | capacity, buffer, waiters                                            |
| request        | context, channel, resume point, direction, value, frame, environment |
| func           | entry, arity, environment, declaration                               |
| method         | receiver, name                                                       |
| wait group     | counter, waiters                                                     |
-/

namespace FiberMachine

/-- Where the references of a block are. -/
inductive Layout where
  /-- Payload words at fixed positions, in the order in which they are followed. -/
  | fields (positions : List Nat)
  /-- Payload word 0 is a count, and as many references follow it. -/
  | counted
  deriving DecidableEq

/-- The layout of the objects that carry a tag. -/
def Tag.layout : Tag → Layout
  | .unassigned | .int | .float | .bool | .bytes | .callRef => .fields []
  | .string => .fields [1]
  | .frame | .environment | .array => .counted
  | .slice => .fields [0]
  | .stack => .fields [1]
  | .queue => .fields [2]
  | .list => .fields [1, 2]
  | .listNode => .fields [0, 1, 2]
  | .context => .fields [1, 2, 3, 5]
  | .channel => .fields [1, 2]
  | .channelRequest => .fields [0, 1, 4, 5, 6]
  | .func => .fields [2]
  | .method => .fields [0, 1]
  | .waitGroup => .fields [1]

namespace Heap

/-- The addresses that a counted block holds. -/
def countedReferences (addr : Addr) : HeapReader (List Addr) := do
  let count ← readNat addr 0
  expectListable count
  readNats addr 1 count

/-- The addresses that the block at `addr` refers to. -/
def children (addr : Addr) : HeapReader (List Addr) := do
  match (← tag addr).layout with
  | .fields positions => positions.mapM (readNat addr)
  | .counted => countedReferences addr

end Heap

end FiberMachine
