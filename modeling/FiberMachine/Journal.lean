/-!
# Journal

A journal collects levelled records of what happened, oldest first. It keeps a record only if the
record is at least as severe as the journal's threshold; a journal without a threshold keeps
nothing. Texts are given as thunks, so a record that is not kept costs nothing.
-/

namespace FiberMachine

/-- How much a record matters, most severe first. -/
inductive Severity where
  | error
  | warn
  | debug
  | trace
  deriving DecidableEq

namespace Severity

/-- The name a record is shown under. -/
def name : Severity → String
  | .error => "ERROR"
  | .warn => "WARN"
  | .debug => "DEBUG"
  | .trace => "TRACE"

/-- Position in the order of decreasing severity. -/
def rank : Severity → Nat
  | .error => 0
  | .warn => 1
  | .debug => 2
  | .trace => 3

end Severity

/-- Records kept so far and the least severe level that is kept. -/
structure Journal where
  threshold : Option Severity
  records : Array (Severity × String)

namespace Journal

/-- The empty journal with the given threshold. -/
def start (threshold : Option Severity) : Journal := ⟨threshold, #[]⟩

/-- Whether records of this severity are kept. -/
def keeps (j : Journal) (severity : Severity) : Bool :=
  match j.threshold with
  | none => false
  | some least => severity.rank ≤ least.rank

/-- Add a record if its severity is kept. -/
def note (j : Journal) (severity : Severity) (text : Unit → String) : Journal :=
  if j.keeps severity then { j with records := j.records.push (severity, text ()) } else j

theorem note_of_not_keeps {j : Journal} {severity : Severity} (h : j.keeps severity = false)
    (text : Unit → String) : j.note severity text = j := by
  simp [note, h]

end Journal

end FiberMachine
