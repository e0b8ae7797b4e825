import GuardedIL.Syntax.Program

/-!
# Diagnostics

A diagnostic is a message with a severity and a place. A log keeps diagnostics in the order in which
they were reported.
-/

namespace GuardedIL

inductive Severity where
  | note | warning | error
  deriving DecidableEq, Repr, Inhabited

def Severity.all : List Severity :=
  [.note, .warning, .error]

def Severity.name : Severity → String
  | .note => "note"
  | .warning => "warning"
  | .error => "error"

structure Diagnostic where
  severity : Severity := .error
  message : String
  loc : Loc := {}
  deriving DecidableEq, Repr, Inhabited

/-- The line and, if known, the column; nothing for an unknown line. -/
def Loc.text (l : Loc) : String :=
  if l.line = 0 then ""
  else if l.column = 0 then toString l.line.toNat ++ ": "
  else toString l.line.toNat ++ ":" ++ toString l.column.toNat ++ ": "

def Diagnostic.text (d : Diagnostic) : String :=
  d.loc.text ++ d.severity.name ++ ": " ++ d.message ++ "\n"

/-- Reported diagnostics, the oldest first. -/
structure DiagnosticLog where
  entries : List Diagnostic := []
  deriving DecidableEq, Repr, Inhabited

namespace DiagnosticLog

def report (log : DiagnosticLog) (d : Diagnostic) : DiagnosticLog :=
  { entries := log.entries ++ [d] }

def count (log : DiagnosticLog) (s : Severity) : Nat :=
  log.entries.countP (·.severity == s)

def text (log : DiagnosticLog) : String :=
  String.join (log.entries.map Diagnostic.text)

end DiagnosticLog

end GuardedIL
