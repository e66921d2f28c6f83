/-!
# Operators

The binary and unary operators of the instruction set with the names and symbols they are shown
under.
-/

namespace FiberMachine

/-- Operators on two operands. -/
inductive BinaryOp where
  | add
  | sub
  | mul
  | div
  | rem
  | and
  | or
  | xor
  | andNot
  | shl
  | shr
  | eq
  | ne
  | lt
  | le
  | gt
  | ge
  | logicalAnd
  | logicalOr
  deriving DecidableEq

namespace BinaryOp

/-- All binary operators in order. -/
def all : List BinaryOp :=
  [.add, .sub, .mul, .div, .rem, .and, .or, .xor, .andNot, .shl, .shr, .eq, .ne, .lt, .le, .gt, .ge,
   .logicalAnd, .logicalOr]

def name : BinaryOp → String
  | .add => "Add"
  | .sub => "Sub"
  | .mul => "Mul"
  | .div => "Div"
  | .rem => "Rem"
  | .and => "And"
  | .or => "Or"
  | .xor => "Xor"
  | .andNot => "AndNot"
  | .shl => "Shl"
  | .shr => "Shr"
  | .eq => "Eq"
  | .ne => "Ne"
  | .lt => "Lt"
  | .le => "Le"
  | .gt => "Gt"
  | .ge => "Ge"
  | .logicalAnd => "LogicalAnd"
  | .logicalOr => "LogicalOr"

def symbol : BinaryOp → String
  | .add => "+"
  | .sub => "-"
  | .mul => "*"
  | .div => "/"
  | .rem => "%"
  | .and => "&"
  | .or => "|"
  | .xor => "^"
  | .andNot => "&^"
  | .shl => "<<"
  | .shr => ">>"
  | .eq => "=="
  | .ne => "!="
  | .lt => "<"
  | .le => "<="
  | .gt => ">"
  | .ge => ">="
  | .logicalAnd => "&&"
  | .logicalOr => "||"

/-- What a comparison says about an order; `none` for operators that do not compare. -/
def holds? (op : BinaryOp) (order : Ordering) : Option Bool :=
  match op with
  | .eq => some (order == .eq)
  | .ne => some (order != .eq)
  | .lt => some (order == .lt)
  | .le => some (order != .gt)
  | .gt => some (order == .gt)
  | .ge => some (order != .lt)
  | _ => none

/-- Whether the operator compares its operands. -/
def isComparison (op : BinaryOp) : Bool := (op.holds? .eq).isSome

end BinaryOp

/-- Operators on one operand. -/
inductive UnaryOp where
  | neg
  | not
  | bitNot
  deriving DecidableEq

namespace UnaryOp

/-- All unary operators in order. -/
def all : List UnaryOp := [.neg, .not, .bitNot]

def name : UnaryOp → String
  | .neg => "Neg"
  | .not => "Not"
  | .bitNot => "BitNot"

def symbol : UnaryOp → String
  | .neg => "-"
  | .not => "!"
  | .bitNot => "^"

end UnaryOp

end FiberMachine
