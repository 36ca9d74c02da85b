/-! What a check of definitions has to say. Errors fail a report, warnings do not. -/

namespace TypedPlanning

inductive Severity where
  | warning
  | error
deriving DecidableEq, Repr

structure Diagnostic where
  severity : Severity
  message : String
deriving DecidableEq, Repr

def Diagnostic.isError (d : Diagnostic) : Bool := d.severity == .error

def Diagnostic.text (d : Diagnostic) : String :=
  match d.severity with
  | .warning => s!"warning: {d.message}"
  | .error => s!"error: {d.message}"

structure Report where
  diagnostics : List Diagnostic
deriving DecidableEq, Repr

namespace Report

def errors (r : Report) : List Diagnostic := r.diagnostics.filter Diagnostic.isError

def passed (r : Report) : Bool := r.diagnostics.all (!·.isError)

theorem passed_iff_errors_eq_nil (r : Report) : r.passed = true ↔ r.errors = [] := by
  simp [passed, errors, List.filter_eq_nil_iff]

end Report
end TypedPlanning
