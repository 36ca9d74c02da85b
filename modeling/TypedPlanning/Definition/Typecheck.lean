import TypedPlanning.Definition.Problem
import TypedPlanning.Report

/-! The static check of a domain and a problem against each other. It goes through everything and
reports all it finds, each time saying where. What is merely unusable is a warning, and warnings are
recorded only on demand. -/

namespace TypedPlanning
namespace Definition

/-- Variables with their types, as far as those are known; the innermost first. -/
abbrev Scope := List (String × Option String)

/-- What has been declared so far, the latest first. -/
structure Declarations where
  verbose : Bool
  types : TypeHierarchy
  objects : List (String × Option String) := []
  predicates : List (String × List (Option String)) := []

namespace Declarations

def error (message : String) : List Diagnostic := [⟨.error, message⟩]

def warning (d : Declarations) (message : String) : List Diagnostic :=
  if d.verbose then [⟨.warning, message⟩] else []

def checkFeature (d : Declarations) (feature : Feature) (context : String) : List Diagnostic :=
  d.warning s!"{feature.message} in {context} is unsupported and fails when evaluated"

def checkType (d : Declarations) (type context : String) : List Diagnostic :=
  match d.types.get? type with
  | some _ => []
  | none => error s!"unknown type `{type}` in {context}"

def checkVariablesAfter (d : Declarations) (context : String) :
    List String → List TypedName → List Diagnostic
  | _, [] => []
  | before, v :: vs =>
    (if before.contains v.name then error s!"variable `{v.name}` declared twice in {context}"
      else []) ++
    d.checkType v.type context ++ d.checkVariablesAfter context (v.name :: before) vs

def checkVariables (d : Declarations) (vs : List TypedName) (context : String) : List Diagnostic :=
  d.checkVariablesAfter context [] vs

def typesOf (d : Declarations) (vs : List TypedName) : List (Option String) :=
  vs.map fun v => d.types.get? v.type

/-- The scope with more variables in it. Of two with one name the later hides the earlier. -/
def extend (d : Declarations) (vs : List TypedName) (scope : Scope) : Scope :=
  (vs.map fun v => (v.name, d.types.get? v.type)).reverse ++ scope

/-- The type of a term, if that is known; nothing if the term itself is not. -/
def typeOf? (d : Declarations) (scope : Scope) : Term → Option (Option String)
  | .name n => d.objects.lookup n
  | .variableNamed v => scope.lookup v

def checkTerm (d : Declarations) (scope : Scope) (context : String) (t : Term) : List Diagnostic :=
  match d.typeOf? scope t, t with
  | some _, _ => []
  | none, .name n => error s!"unknown object `{n}` in {context}"
  | none, .variableNamed v => error s!"unbound variable `{v}` in {context}"

def checkArgument (d : Declarations) (scope : Scope) (context predicate : String) (position : Nat)
    (t : Term) (expected : Option String) : List Diagnostic :=
  d.checkTerm scope context t ++
  match (d.typeOf? scope t).join, expected with
  | some found, some expected =>
    if d.types.isSubtype found expected then []
    else error (s!"argument {position} of `{predicate}` has type `{found}`, " ++
      s!"expected `{expected}` in {context}")
  | _, _ => []

def checkArguments (d : Declarations) (scope : Scope) (context predicate : String) :
    Nat → List Term → List (Option String) → List Diagnostic
  | position, t :: ts, expected :: types =>
    d.checkArgument scope context predicate position t expected ++
      d.checkArguments scope context predicate (position + 1) ts types
  | _, _, _ => []

def checkAtom (d : Declarations) (scope : Scope) (context : String) (a : Atom) : List Diagnostic :=
  match d.predicates.lookup a.predicate with
  | none => error s!"unknown predicate `{a.predicate}` in {context}"
  | some types =>
    if types.length = a.terms.length then
      d.checkArguments scope context a.predicate 1 a.terms types
    else error (s!"`{a.predicate}` takes {types.length} arguments, " ++
      s!"{a.terms.length} given in {context}")

mutual

def checkGoal (d : Declarations) (context : String) : Scope → Goal → List Diagnostic
  | scope, .atom a => d.checkAtom scope context a
  | scope, .equal left right =>
    d.checkTerm scope context left ++ d.checkTerm scope context right
  | scope, .not g => d.checkGoal context scope g
  | scope, .and gs => d.checkGoals context scope gs
  | scope, .or gs => d.checkGoals context scope gs
  | scope, .imply a b => d.checkGoal context scope a ++ d.checkGoal context scope b
  | scope, .forAll vs g =>
    d.checkVariables vs context ++ d.checkGoal context (d.extend vs scope) g
  | scope, .forSome vs g =>
    d.checkVariables vs context ++ d.checkGoal context (d.extend vs scope) g
  | _, .unsupported feature => d.checkFeature feature context

def checkGoals (d : Declarations) (context : String) : Scope → List Goal → List Diagnostic
  | _, [] => []
  | scope, g :: gs => d.checkGoal context scope g ++ d.checkGoals context scope gs

end

mutual

def checkEffect (d : Declarations) (context : String) : Scope → Effect → List Diagnostic
  | scope, .add a => d.checkAtom scope context a
  | scope, .delete a => d.checkAtom scope context a
  | scope, .and es => d.checkEffects context scope es
  | scope, .when guard e => d.checkGoal context scope guard ++ d.checkEffect context scope e
  | scope, .forAll vs e =>
    d.checkVariables vs context ++ d.checkEffect context (d.extend vs scope) e
  | _, .unsupported feature => d.checkFeature feature context

def checkEffects (d : Declarations) (context : String) : Scope → List Effect → List Diagnostic
  | _, [] => []
  | scope, e :: es => d.checkEffect context scope e ++ d.checkEffects context scope es

end

/-- An object that is declared again keeps its first type. -/
def declareObject (d : Declarations) (o : TypedName) : Declarations :=
  if (d.objects.lookup o.name).isSome then d
  else { d with objects := (o.name, d.types.get? o.type) :: d.objects }

def checkObject (context : String) (d : Declarations) (o : TypedName) : List Diagnostic :=
  d.checkType o.type context ++
  if (d.objects.lookup o.name).isSome then
    d.warning s!"object `{o.name}` declared twice in {context}"
  else []

/-- A predicate that is declared again gets the later types. -/
def declarePredicate (d : Declarations) (p : Predicate) : Declarations :=
  { d with predicates := (p.name, d.typesOf p.parameters) :: d.predicates }

def checkPredicate (d : Declarations) (p : Predicate) : List Diagnostic :=
  d.checkVariables p.parameters s!"predicate `{p.name}`" ++
  if (d.predicates.lookup p.name).isSome then error s!"predicate `{p.name}` declared twice" else []

/-- The head of a derivation declares its predicate, unless that is declared already. -/
def declareDerived (d : Declarations) (r : Derived) : Declarations :=
  if (d.predicates.lookup r.head.name).isSome then d else d.declarePredicate r.head

def derivedContext (r : Derived) : String := s!"derived predicate `{r.head.name}`"

def checkDerivedHead (d : Declarations) (r : Derived) : List Diagnostic :=
  if (d.predicates.lookup r.head.name).isSome then []
  else d.checkVariables r.head.parameters (derivedContext r)

def checkDerivedBody (d : Declarations) (r : Derived) : List Diagnostic :=
  d.checkVariables r.head.parameters (derivedContext r) ++
    d.checkGoal (derivedContext r) (d.extend r.head.parameters []) r.body

/-- Declares one after the other, each checked before it is declared. -/
def declareEach {α : Type} (declare : Declarations → α → Declarations)
    (check : Declarations → α → List Diagnostic) :
    List α → Declarations → List Diagnostic × Declarations
  | [], d => ([], d)
  | a :: as, d =>
    let (later, d') := declareEach declare check as (declare d a)
    (check d a ++ later, d')

def checkActionsAfter (d : Declarations) : List String → List Action → List Diagnostic
  | _, [] => []
  | before, a :: as =>
    let context := s!"action `{a.name}`"
    let scope := d.extend a.parameters []
    (if before.contains a.name then error s!"{context} declared twice" else []) ++
      d.checkVariables a.parameters context ++ d.checkGoal context scope a.precondition ++
      d.checkEffect context scope a.effect ++ d.checkActionsAfter (a.name :: before) as

/-- Axioms have no names, and are counted instead. -/
def checkAxiomsFrom (d : Declarations) : Nat → List Axiom → List Diagnostic
  | _, [] => []
  | n, a :: as =>
    let context := s!"axiom {n}"
    let scope := d.extend a.binders []
    d.checkVariables a.binders context ++ d.checkGoal context scope a.context ++
      (match a.implies with
        | .atom head => d.checkAtom scope context head
        | _ => error s!"{context} must imply a single positive atom") ++
      d.checkAxiomsFrom (n + 1) as

def unsupportedRequirements : List String :=
  [":durative-actions", ":duration-inequalities", ":continuous-effects", ":fluents",
    ":numeric-fluents", ":object-fluents", ":action-costs", ":preferences", ":constraints",
    ":timed-initial-literals"]

def checkRequirements (d : Declarations) (requirements : List String) (context : String) :
    List Diagnostic :=
  requirements.flatMap fun r =>
    if unsupportedRequirements.contains (Text.lower r) then
      d.warning s!"requirement `{r}` of {context} is not supported"
    else []

/-- A super type other than the root is better declared itself. -/
def checkSuperTypes (d : Declarations) (types : List TypedName) : List Diagnostic :=
  types.flatMap fun t =>
    if t.type = rootType ∨ types.any (·.name == t.type) then []
    else d.warning s!"super type `{t.type}` of `{t.name}` is not declared"

end Declarations

open Declarations in
/-- Everything that is found wrong with a domain and a problem for it, in their order. -/
def typecheck (verbose : Bool) (domain : Domain) (problem : Problem) : Report :=
  let (typeErrors, types) :=
    match typeHierarchy domain.types with
    | .ok h => ([], h)
    | .error fault =>
      (error s!"{(Error.definition fault).message} in domain `{domain.name}`", .initial)
  let d : Declarations := { verbose, types }
  let header := typeErrors ++ d.checkSuperTypes domain.types ++
    d.checkRequirements domain.requirements "the domain" ++
    d.checkRequirements problem.requirements "the problem" ++
    if domain.name = problem.domainName then []
    else error (s!"problem `{problem.name}` is defined for domain `{problem.domainName}`, " ++
      s!"not `{domain.name}`")
  let (constants, d) :=
    declareEach declareObject (checkObject "the domain constants") domain.constants d
  let (objects, d) :=
    declareEach declareObject (checkObject "the problem objects") problem.objects d
  let (predicates, d) := declareEach declarePredicate checkPredicate domain.predicates d
  let (heads, d) := declareEach declareDerived checkDerivedHead domain.derived d
  ⟨header ++ constants ++ objects ++ predicates ++ heads ++
    d.checkActionsAfter [] domain.actions ++
    domain.derived.flatMap d.checkDerivedBody ++
    d.checkAxiomsFrom 1 domain.axioms ++
    problem.initial.flatMap (d.checkAtom [] "the initial state") ++
    d.checkGoal "the goal" [] problem.goal⟩

end Definition
end TypedPlanning
