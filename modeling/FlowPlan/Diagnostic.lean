import FlowPlan.Ids

/-!
Diagnostics: what a check has to say about a flow, and the log that collects them.

A diagnostic carries its wording.  The analyses decide first what is wrong, in types of their own,
and turn it into a diagnostic last, so that a statement about an analysis speaks of causes and not
of sentences.
-/

namespace FlowPlan

/-- A stable short name for one kind of trouble. -/
structure Code where
  text : String
deriving DecidableEq, Repr

namespace Code

/-- A mandatory port without a connection. -/
def unconnectedPort : Code := ⟨"E0101"⟩

/-- A cycle of connections. -/
def cycle : Code := ⟨"E0102"⟩

/-- A nested flow whose ports cannot be told apart. -/
def ambiguousPart : Code := ⟨"E0103"⟩

/-- A shuffled element that no rendezvous processor runs. -/
def noRendezvous : Code := ⟨"E0201"⟩

/-- An element that no processor runs. -/
def noProcessor : Code := ⟨"E0202"⟩

/-- A data type that names no known class. -/
def unknownClass : Code := ⟨"E0301"⟩

/-- A key term that names no property of its class. -/
def unknownProperty : Code := ⟨"E0302"⟩

/-- Shuffled inputs of one element that group differently. -/
def groupingMismatch : Code := ⟨"E0303"⟩

/-- A shuffled input that declares no key. -/
def missingKey : Code := ⟨"E0304"⟩

/-- A plan that breaks a rule of planning. -/
def planDefect : Code := ⟨"E0401"⟩

/-- A pass whose result does not meet its obligations. -/
def failedCertificate : Code := ⟨"E0901"⟩

end Code

inductive Severity
  | error
  | warning
deriving DecidableEq, Repr

namespace Severity

def text : Severity → String
  | error => "error"
  | warning => "warning"

end Severity

/-- The element a diagnostic is about.  Inside nested flows the name is qualified with the names of
the enclosing parts; the number belongs to the flow that holds the element. -/
structure ElementRef where
  id : ElementId
  name : String
deriving DecidableEq, Repr

structure Diagnostic where
  code : Option Code
  severity : Severity
  element : Option ElementRef
  message : String
  hint : Option String
deriving DecidableEq, Repr

namespace Diagnostic

/-- An error about one element, without a hint. -/
def errorAt (code : Code) (element : ElementRef) (message : String) : Diagnostic :=
  { code := some code, severity := .error, element := some element, message, hint := none }

def withHint (d : Diagnostic) (hint : String) : Diagnostic := { d with hint := some hint }

def isError (d : Diagnostic) : Bool := d.severity == .error

/-- The printed form: one line for the message, then one each for the place and the hint. -/
def text (d : Diagnostic) : String :=
  let head := match d.code with
    | some code => s!"{d.severity.text}[{code.text}]: {d.message}"
    | none => s!"{d.severity.text}: {d.message}"
  let place := match d.element with
    | some e => s!"\n  at: {e.name} ({e.id.label})"
    | none => ""
  let advice := match d.hint with
    | some hint => s!"\n  hint: {hint}"
    | none => ""
  head ++ place ++ advice

end Diagnostic

/-- Diagnostics in the order in which they arrived. -/
structure DiagnosticLog where
  entries : List Diagnostic
deriving DecidableEq, Repr

namespace DiagnosticLog

def empty : DiagnosticLog := ⟨[]⟩

def add (log : DiagnosticLog) (d : Diagnostic) : DiagnosticLog := ⟨log.entries ++ [d]⟩

def errorCount (log : DiagnosticLog) : Nat := (log.entries.filter (·.isError)).length

def hasError (log : DiagnosticLog) : Bool := log.errorCount > 0

/-- All entries, and the log emptied of them. -/
def drain (log : DiagnosticLog) : List Diagnostic × DiagnosticLog := (log.entries, empty)

end DiagnosticLog
end FlowPlan
