import Formula.Text.Ascii
import Formula.Source.Position

/-! Diagnostics: a severity, a message, a location and usually a fault, one of six kinds with the
codes `E0001` to `E0006`, printed as a line of text. -/
namespace Formula

/-- An error stops a reading; a warning reports a repair. -/
inductive Severity where
  | error
  | warning
deriving DecidableEq, Inhabited

/-- The word printed for a severity. -/
def Severity.name : Severity → String
  | .error => "error"
  | .warning => "warning"

/-- The kinds of trouble a reading can meet. -/
inductive Fault where
  | unexpectedCharacter
  | expectedIdentifier
  | unterminatedStructure
  | invalidNumber
  | trailingInput
  | nestingTooDeep
deriving DecidableEq, Inhabited

namespace Fault

/-- Faults in the order of their codes, from `E0001`. -/
def all : List Fault :=
  [unexpectedCharacter, expectedIdentifier, unterminatedStructure, invalidNumber, trailingInput,
    nestingTooDeep]

/-- The fault with code number `i`, counting `E0001` as `1`; code `0` means no fault. -/
def ofIndex? (i : Int) : Option Fault := if 1 ≤ i then all[(i - 1).toNat]? else none

/-- The stable code of a fault. -/
def code : Fault → String
  | unexpectedCharacter => "E0001"
  | expectedIdentifier => "E0002"
  | unterminatedStructure => "E0003"
  | invalidNumber => "E0004"
  | trailingInput => "E0005"
  | nestingTooDeep => "E0006"

/-- The descriptive name of a fault. -/
def name : Fault → String
  | unexpectedCharacter => "unexpected-character"
  | expectedIdentifier => "expected-identifier"
  | unterminatedStructure => "unterminated-structure"
  | invalidNumber => "invalid-number"
  | trailingInput => "trailing-input"
  | nestingTooDeep => "nesting-too-deep"

/-- The code of a fault that may be absent: empty without one. -/
def codeOf : Option Fault → String
  | some f => f.code
  | none => ""

/-- The name of a fault that may be absent: `none` without one. -/
def nameOf : Option Fault → String
  | some f => f.name
  | none => "none"

end Fault

/-- A report of a reading: severity, message, where it arose and what kind of trouble it is. -/
structure Diagnostic where
  severity : Severity
  message : String
  location : Location
  fault : Option Fault
deriving DecidableEq, Inhabited

namespace Diagnostic

/-- An error of kind `f` at `loc`. -/
def error (loc : Location) (message : String) (f : Fault) : Diagnostic :=
  ⟨.error, message, loc, some f⟩

/-- A warning of kind `f` at `loc`. -/
def warning (loc : Location) (message : String) (f : Fault) : Diagnostic :=
  ⟨.warning, message, loc, some f⟩

/-- The line for a diagnostic. A non-empty source name comes first, followed by the one-based
line and column when the line is known (line `0` means unknown; the column is a 32-bit counter,
so one past its largest value is `0`); then the severity, the code in brackets when there is a
fault, and the message. -/
def render (d : Diagnostic) (source : String) : String :=
  let place :=
    if source.isEmpty then ""
    else if d.location.line = 0 then source ++ ": "
    else source ++ ":" ++ Ascii.natDecimal d.location.line.toNat ++ ":" ++
      Ascii.natDecimal (d.location.column + 1).toNat ++ ": "
  let code := match d.fault with
    | some f => "[" ++ f.code ++ "]"
    | none => ""
  place ++ d.severity.name ++ code ++ ": " ++ d.message ++ "\n"

/-- The lines for a list of diagnostics, in order. -/
def renderAll (ds : List Diagnostic) (source : String) : String :=
  ds.foldl (fun acc d => acc ++ d.render source) ""

/-- How many of the diagnostics are errors. -/
def errorCount (ds : List Diagnostic) : Nat := ds.countP (·.severity == .error)

end Diagnostic

end Formula
