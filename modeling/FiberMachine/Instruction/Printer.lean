import FiberMachine.Instruction.Basic
import FiberMachine.Decimal.Notation
import FiberMachine.Unicode.Quoted

/-!
# Written instructions

The text of an instruction is a mnemonic and its fields.
-/

namespace FiberMachine.Instruction

/-- How a number constant is written: positionally from 0.0001 up to 16 digits before the point,
and never without a point. -/
def constantFormat : FloatFormat where
  lowest := -4
  highest := 16
  pointZero := true
  nan := "NaN"
  infinity := "inf"
  negativeInfinity := "-inf"

/-- Names separated by commas. -/
def commaList (names : List String) : String := ", ".intercalate names

/-- The text of an instruction. -/
def text : Instruction → String
  | nop => "NOP"
  | loadInt v => s!"LDC {v.toInt}"
  | loadFloat v => "LDC " ++ constantFormat.write v
  | loadBool v => s!"LDC {v}"
  | loadString s => "LDC " ++ Quoted.quote s
  | loadDefault k => s!"LDD {k.name}"
  | loadUnassigned => "LDN"
  | pop => "POP"
  | dup => "DUP"
  | loadVar frame slot => s!"LD ({frame}, {slot})"
  | storeVar frame slot => s!"ST ({frame}, {slot})"
  | binary op => s!"BINOP {op.symbol}"
  | unary op => s!"UNOP {op.symbol}"
  | jump t => s!"GOTO {t}"
  | jumpIfFalse t => s!"JOF {t}"
  | jumpIfTrue t => s!"JOT {t}"
  | enterScope names => "ENTER_SCOPE [" ++ commaList names ++ "]"
  | exitScope => "EXIT_SCOPE"
  | loadFunc entry params => s!"LDF {entry} (" ++ commaList params ++ ")"
  | call argc => s!"CALL {argc}"
  | ret => "RESET"
  | loadMethod method => s!"LDM {method}"
  | callMethod method argc => s!"CALLM {method} {argc}"
  | makeArray n => s!"ARRAY {n}"
  | makeSlice elem hasCap => s!"MAKE_SLICE {elem.name}" ++ (if hasCap then " cap" else "")
  | index => "INDEX"
  | storeIndex => "ST_INDEX"
  | len => "LEN"
  | cap => "CAP"
  | slice low high =>
    "SLICE [" ++ (if low then "lo" else "") ++ ":" ++ (if high then "hi" else "") ++ "]"
  | append argc => s!"APPEND {argc}"
  | makeChan buffered => if buffered then "MAKE_CHAN buffered" else "MAKE_CHAN"
  | send => "SEND"
  | recv => "RECV"
  | selectSend t => s!"SELECT_SEND -> {t}"
  | selectRecv t name => s!"SELECT_RECV {name} -> {t}"
  | select cases (some d) => s!"SELECT {cases} default -> {d}"
  | select cases none => s!"SELECT {cases}"
  | go argc => s!"FORK {argc}"
  | print argc newline => (if newline then "PRINTLN " else "PRINT ") ++ toString argc
  | done => "DONE"

end FiberMachine.Instruction
