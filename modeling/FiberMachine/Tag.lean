/-!
# Tags

Every allocated block carries a tag that says what kind of object it holds. Tags are stored as one
byte, numbered in the order of declaration.
-/

namespace FiberMachine

/-- The kind of object in a block. -/
inductive Tag where
  | unassigned
  | int
  | float
  | bool
  | string
  /-- Packed characters behind a `string`. -/
  | bytes
  | frame
  | environment
  | context
  | array
  | slice
  | stack
  | queue
  | list
  | listNode
  | channel
  | channelRequest
  | func
  | method
  /-- A return marker on a return stack. -/
  | callRef
  | waitGroup
  deriving DecidableEq

namespace Tag

/-- All tags in the order of their numbers. -/
def all : List Tag :=
  [.unassigned, .int, .float, .bool, .string, .bytes, .frame, .environment, .context, .array,
   .slice, .stack, .queue, .list, .listNode, .channel, .channelRequest, .func, .method, .callRef,
   .waitGroup]

/-- The number a tag is stored as. -/
def number (t : Tag) : Nat := t.ctorIdx

/-- The tag stored as `n`; numbers that belong to no tag read as `unassigned`. -/
def ofNumber (n : Nat) : Tag := all[n]?.getD .unassigned

/-- The name a tag is shown under. -/
def name : Tag → String
  | .unassigned => "Unassigned"
  | .int => "Int"
  | .float => "Float"
  | .bool => "Bool"
  | .string => "String"
  | .bytes => "Bytes"
  | .frame => "Frame"
  | .environment => "Environment"
  | .context => "Context"
  | .array => "Array"
  | .slice => "Slice"
  | .stack => "Stack"
  | .queue => "Queue"
  | .list => "List"
  | .listNode => "ListNode"
  | .channel => "Channel"
  | .channelRequest => "ChannelRequest"
  | .func => "Func"
  | .method => "Method"
  | .callRef => "CallRef"
  | .waitGroup => "WaitGroup"

/-- Tags of the values that operators work on by content. -/
def isPrimitive : Tag → Bool
  | .int | .float | .bool | .string => true
  | _ => false

theorem ofNumber_number (t : Tag) : ofNumber t.number = t := by cases t <;> rfl

end Tag

end FiberMachine
