import FiberMachine.Machine.Basic

/-!
# Operators on values

Both operands of a binary operator must be of one kind. Ints wrap around, divide toward zero and
shift by any amount that is not negative; floats are doubles; strings are added and compared by
bytes. All other kinds know only equality, which is identity, except that a nil slice equals nil.
-/

namespace FiberMachine.Machine

open Heap

/-- The result of an operator before it is boxed. -/
inductive Primitive where
  | int (value : Int64)
  | float (value : Binary64)
  | bool (value : Bool)
  deriving DecidableEq

/-- The object with the given content. -/
def Primitive.box : Primitive → HeapM Addr
  | .int v => Scalar.newInt v
  | .float v => Scalar.newFloat v
  | .bool v => Scalar.newBool v

/-- The error for an operator on operands it does not take. -/
def notDefined (op : BinaryOp) (left right : Tag) : MachineError :=
  .invalidOperands op.symbol [left, right]

/-- A comparison of operands in the given order. -/
def comparison (op : BinaryOp) (order : Ordering) (left right : Tag) :
    Except MachineError Primitive :=
  match op.holds? order with
  | some b => .ok (.bool b)
  | none => .error (notDefined op left right)

/-- A shift to the left; bits that leave the word are lost. -/
def shiftLeft (a b : Int64) : Int64 := if b < 64 then a <<< b else 0

/-- A shift to the right that keeps the sign. -/
def shiftRight (a b : Int64) : Int64 := a >>> (if b < 64 then b else 63)

/-- A binary operator on ints. -/
def onInts (op : BinaryOp) (a b : Int64) : Except MachineError Primitive :=
  match op with
  | .add => .ok (.int (a + b))
  | .sub => .ok (.int (a - b))
  | .mul => .ok (.int (a * b))
  | .div => if b = 0 then .error .divisionByZero else .ok (.int (a / b))
  | .rem => if b = 0 then .error .divisionByZero else .ok (.int (a % b))
  | .and => .ok (.int (a &&& b))
  | .or => .ok (.int (a ||| b))
  | .xor => .ok (.int (a ^^^ b))
  | .andNot => .ok (.int (a &&& ~~~b))
  | .shl => if b < 0 then .error .negativeShift else .ok (.int (shiftLeft a b))
  | .shr => if b < 0 then .error .negativeShift else .ok (.int (shiftRight a b))
  | _ => comparison op (compare a b) .int .int

/-- A binary operator on floats. A NaN is neither equal to nor ordered with anything. -/
def onFloats (op : BinaryOp) (a b : Binary64) : Except MachineError Primitive :=
  match op with
  | .add => .ok (.float (a.add b))
  | .sub => .ok (.float (a.sub b))
  | .mul => .ok (.float (a.mul b))
  | .div => .ok (.float (a.div b))
  | .eq => .ok (.bool (a.eq b))
  | .ne => .ok (.bool !(a.eq b))
  | .lt => .ok (.bool (a.lt b))
  | .le => .ok (.bool (a.le b))
  | .gt => .ok (.bool (b.lt a))
  | .ge => .ok (.bool (b.le a))
  | _ => .error (notDefined op .float .float)

/-- A binary operator on truth values. -/
def onBools (op : BinaryOp) (a b : Bool) : Except MachineError Primitive :=
  match op with
  | .eq => .ok (.bool (a == b))
  | .ne => .ok (.bool (a != b))
  | .logicalAnd => .ok (.bool (a && b))
  | .logicalOr => .ok (.bool (a || b))
  | _ => .error (notDefined op .bool .bool)

/-- Whether two objects that are not both of one primitive kind are equal; `none` if they cannot be
compared. -/
def sameReference? (left right : Addr) : HeapReader (Option Bool) := do
  match ← tag left, ← tag right with
  | .slice, .unassigned => return some ((← Slice.array left) = unassigned)
  | .unassigned, .slice => return some ((← Slice.array right) = unassigned)
  | .unassigned, _ | _, .unassigned => return some (left = right)
  | l, r => return if l = r && !l.isPrimitive then some (left = right) else none

/-- Equality and inequality of objects that are not both of one primitive kind. -/
def onReferences (op : BinaryOp) (left right : Addr) : MachineM Primitive := do
  let lt ← tag left
  let rt ← tag right
  match op with
  | .eq | .ne =>
    match ← sameReference? left right with
    | some same => return .bool (if op = .eq then same else !same)
    | none => abort (notDefined op lt rt)
  | _ => abort (notDefined op lt rt)

/-- The outcome of a pure computation. -/
def ofExcept {α : Type} : Except MachineError α → MachineM α
  | .ok a => pure a
  | .error cause => abort cause

/-- The object that a binary operator makes of two operands. -/
def applyBinary (op : BinaryOp) (left right : Addr) : MachineM Addr := do
  match ← tag left, ← tag right with
  | .int, .int =>
    (← ofExcept (onInts op (← Scalar.int left) (← Scalar.int right))).box
  | .float, .float =>
    (← ofExcept (onFloats op (← Scalar.float left) (← Scalar.float right))).box
  | .bool, .bool =>
    (← ofExcept (onBools op (← Scalar.bool left) (← Scalar.bool right))).box
  | .string, .string =>
    if op = .add then
      Text.concat left right
    else
      let order := compare (← Text.bytes left) (← Text.bytes right)
      (← ofExcept (comparison op order .string .string)).box
  | _, _ => (← onReferences op left right).box

/-- `[left, right]`: replace two operands by the result of an operator. -/
def execBinary (context : Addr) (op : BinaryOp) : MachineM Unit := do
  let right ← pop context
  let left ← pop context
  push context (← applyBinary op left right)

/-- The object that a unary operator makes of its operand. -/
def applyUnary (op : UnaryOp) (operand : Addr) : MachineM Addr := do
  match op, ← tag operand with
  | .neg, .int => Scalar.newInt (-(← Scalar.int operand))
  | .neg, .float => Scalar.newFloat (← Scalar.float operand).neg
  | .bitNot, .int => Scalar.newInt (~~~(← Scalar.int operand))
  | .not, .bool => Scalar.newBool (!(← Scalar.bool operand))
  | _, t => abort (.invalidOperands op.symbol [t])

/-- `[operand]`: replace an operand by the result of an operator. -/
def execUnary (context : Addr) (op : UnaryOp) : MachineM Unit := do
  let operand ← pop context
  push context (← applyUnary op operand)

end FiberMachine.Machine
