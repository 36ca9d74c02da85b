/-! Causes of failure, and the wording of each. A cause records what was found; only the `message`
functions below turn it into a sentence. -/

namespace TypedPlanning

inductive Document where
  | domain
  | problem
  | plan
deriving DecidableEq, Repr

def Document.name : Document → String
  | .domain => "domain"
  | .problem => "problem"
  | .plan => "plan"

/-- What is wrong with a text at the place where reading stops. -/
inductive ReadingFault where
  | unclosed
  | unbalanced
  | unexpectedWord (word : String)
  | noExpression
  | severalExpressions
  | notCalls
deriving DecidableEq, Repr

def ReadingFault.message : ReadingFault → String
  | .unclosed => "unexpected end of input, missing `)`"
  | .unbalanced => "unbalanced `)`"
  | .unexpectedWord word => s!"unexpected `{word}`"
  | .noExpression => "empty input"
  | .severalExpressions => "more than one top-level expression"
  | .notCalls => "expected a list of action calls"

/-- Why well-formed definitions describe no consistent planning problem. -/
inductive DefinitionFault where
  | unknownType (name : String)
  | unknownObject (name : String)
  | unknownPredicate (name : String)
  | unknownVariable (name : String)
  | arityMismatch (predicate : String) (expected found : Nat)
  | wrongDomain (expected found : String)
  | circularInheritance (type : String)
  | alreadyHasSuperType (type : String)
  | negatedAxiomHead (predicate : String)
  | unexpected (expected found : String)
  | missing (what : String)
  | invalidName (name : String)
deriving DecidableEq, Repr

def DefinitionFault.message : DefinitionFault → String
  | .unknownType name => s!"unknown type `{name}`"
  | .unknownObject name => s!"unknown object `{name}`"
  | .unknownPredicate name => s!"unknown predicate `{name}`"
  | .unknownVariable name => s!"unknown variable `{name}`"
  | .arityMismatch predicate expected found =>
    s!"predicate `{predicate}` expects {expected} arguments, got {found}"
  | .wrongDomain expected found => s!"problem is defined for domain `{found}`, not `{expected}`"
  | .circularInheritance type => s!"type `{type}` inherits from itself"
  | .alreadyHasSuperType type => s!"type `{type}` already has a different super type"
  | .negatedAxiomHead predicate => s!"axiom for `{predicate}` must imply a positive atom"
  | .unexpected expected found => s!"expected {expected}, found `{found}`"
  | .missing what => s!"missing {what}"
  | .invalidName name => s!"`{name}` is not a valid name"

/-- Constructs of the planning language that are recognised and cannot be evaluated. -/
inductive Feature where
  | eitherTypes
  | numericFluent (operator : String)
  | temporal (form : String)
  | preference
  | constraint (keyword : String)
  | durativeAction
  | timedInitialLiteral
  | metric
  | length
deriving DecidableEq, Repr

def Feature.message : Feature → String
  | .eitherTypes => "`either` types"
  | .numericFluent operator => s!"numeric fluents (`{operator}`)"
  | .temporal form => s!"temporal construct (`{form}`)"
  | .preference => "preferences"
  | .constraint keyword => s!"constraint (`{keyword}`)"
  | .durativeAction => "durative actions"
  | .timedInitialLiteral => "timed initial literals"
  | .metric => "metric specification"
  | .length => "length specification"

/-- Why a written call or proposition names nothing in a problem. -/
inductive CallFault where
  | malformed (text : String)
  | unknownAction (name : String)
  | unknownPredicate (name : String)
  | unknownObject (name : String)
  | arityMismatch (name : String) (expected found : Nat)
deriving DecidableEq, Repr

def CallFault.message : CallFault → String
  | .malformed text => s!"cannot read `{text}` as a call"
  | .unknownAction name => s!"unknown action `{name}`"
  | .unknownPredicate name => s!"unknown predicate `{name}`"
  | .unknownObject name => s!"unknown object `{name}`"
  | .arityMismatch name expected found => s!"`{name}` takes {expected} arguments, got {found}"

inductive Error where
  | unreadable (document : Document) (line : Nat) (fault : ReadingFault)
  | definition (fault : DefinitionFault)
  | unsupported (feature : Feature)
  | call (fault : CallFault)
  | argumentType (parameter expected object found : String)
  | unboundVariable (name : String)
deriving DecidableEq, Repr

def Error.message : Error → String
  | .unreadable document line fault =>
    s!"malformed input: syntax error in {document.name} at line {line}: {fault.message}"
  | .definition fault => s!"malformed input: {fault.message}"
  | .unsupported feature => s!"unsupported feature: {feature.message}"
  | .call fault => s!"invalid call: {fault.message}"
  | .argumentType parameter expected object found =>
    s!"object `{object}` of type `{found}` cannot be bound to " ++
      s!"parameter `{parameter}` of type `{expected}`"
  | .unboundVariable name => s!"variable `{name}` is not bound"

end TypedPlanning
