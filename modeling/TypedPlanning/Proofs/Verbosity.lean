import TypedPlanning.Definition.Typecheck

/-! The static check says the same about errors whether or not it is asked for warnings. What it
has declared so far never depends on what it has said, so the two runs go along: each part of the
check, run quietly, says the errors that the same part says when it is run verbosely, and leaves
the same declarations behind. -/

namespace TypedPlanning
namespace Definition
namespace Declarations

/-- The same declarations, for a check that keeps warnings to itself. -/
def quiet (d : Declarations) : Declarations := { d with verbose := false }

variable (d : Declarations) (scope : Scope) (context : String)

theorem errors_error (message : String) :
    (error message).filter Diagnostic.isError = error message := rfl

theorem errors_warning (message : String) :
    (d.warning message).filter Diagnostic.isError = d.quiet.warning message := by
  unfold warning
  cases d.verbose <;> rfl

theorem errors_ite {P : Prop} [Decidable P] {ds es : List Diagnostic} :
    (if P then ds else es).filter Diagnostic.isError =
      if P then ds.filter Diagnostic.isError else es.filter Diagnostic.isError :=
  apply_ite _ P ds es

theorem errors_flatMap {α : Type} {check check' : α → List Diagnostic} (as : List α)
    (same : ∀ a, (check a).filter Diagnostic.isError = check' a) :
    (as.flatMap check).filter Diagnostic.isError = as.flatMap check' := by
  rw [List.filter_flatMap]
  exact congrArg (List.flatMap · as) (funext same)

@[simp] theorem types_quiet : d.quiet.types = d.types := rfl

@[simp] theorem objects_quiet : d.quiet.objects = d.objects := rfl

@[simp] theorem predicates_quiet : d.quiet.predicates = d.predicates := rfl

@[simp] theorem extend_quiet (vs : List TypedName) : d.quiet.extend vs scope = d.extend vs scope :=
  rfl

@[simp] theorem typeOf?_quiet (t : Term) : d.quiet.typeOf? scope t = d.typeOf? scope t := by
  cases t <;> rfl

theorem errors_checkFeature (feature : Feature) :
    (d.checkFeature feature context).filter Diagnostic.isError =
      d.quiet.checkFeature feature context := errors_warning d _

theorem errors_checkType (type : String) :
    (d.checkType type context).filter Diagnostic.isError = d.quiet.checkType type context := by
  rw [checkType, checkType, types_quiet]
  cases d.types.get? type <;> rfl

theorem errors_checkVariables (vs : List TypedName) :
    (d.checkVariables vs context).filter Diagnostic.isError =
      d.quiet.checkVariables vs context := by
  rw [checkVariables, checkVariables]
  generalize [] = before
  induction vs generalizing before with
  | nil => rfl
  | cons v vs ih =>
    rw [checkVariablesAfter, checkVariablesAfter, List.filter_append, List.filter_append,
      errors_checkType, errors_ite, errors_error, List.filter_nil, ih]

theorem errors_checkTerm (t : Term) :
    (d.checkTerm scope context t).filter Diagnostic.isError =
      d.quiet.checkTerm scope context t := by
  unfold checkTerm
  rw [typeOf?_quiet]
  cases d.typeOf? scope t with
  | some type => rfl
  | none => cases t <;> rfl

theorem errors_checkArgument (predicate : String) (position : Nat) (t : Term)
    (expected : Option String) :
    (d.checkArgument scope context predicate position t expected).filter Diagnostic.isError =
      d.quiet.checkArgument scope context predicate position t expected := by
  unfold checkArgument
  rw [List.filter_append, errors_checkTerm, typeOf?_quiet, types_quiet]
  congr 1
  cases (d.typeOf? scope t).join with
  | none => rfl
  | some found =>
    cases expected with
    | none => rfl
    | some expected => exact errors_ite

theorem errors_checkArguments (predicate : String) (position : Nat) (ts : List Term)
    (types : List (Option String)) :
    (d.checkArguments scope context predicate position ts types).filter Diagnostic.isError =
      d.quiet.checkArguments scope context predicate position ts types := by
  induction ts generalizing position types with
  | nil => rfl
  | cons t ts ih =>
    cases types with
    | nil => rfl
    | cons expected types =>
      rw [checkArguments, checkArguments, List.filter_append, errors_checkArgument, ih]

theorem errors_checkAtom (a : Atom) :
    (d.checkAtom scope context a).filter Diagnostic.isError =
      d.quiet.checkAtom scope context a := by
  unfold checkAtom
  rw [predicates_quiet]
  cases d.predicates.lookup a.predicate with
  | none => rfl
  | some types =>
    dsimp only
    rw [errors_ite, errors_checkArguments, errors_error]

mutual

theorem errors_checkGoal (scope : Scope) : ∀ g : Goal,
    (d.checkGoal context scope g).filter Diagnostic.isError = d.quiet.checkGoal context scope g
  | .atom a => by
    rw [checkGoal, checkGoal, errors_checkAtom]
  | .equal left right => by
    rw [checkGoal, checkGoal, List.filter_append, errors_checkTerm, errors_checkTerm]
  | .not g => by
    rw [checkGoal, checkGoal, errors_checkGoal scope g]
  | .and gs => by
    rw [checkGoal, checkGoal, errors_checkGoals scope gs]
  | .or gs => by
    rw [checkGoal, checkGoal, errors_checkGoals scope gs]
  | .imply a b => by
    rw [checkGoal, checkGoal, List.filter_append, errors_checkGoal scope a,
      errors_checkGoal scope b]
  | .forAll vs g => by
    rw [checkGoal, checkGoal, List.filter_append, errors_checkVariables,
      errors_checkGoal (d.extend vs scope) g, extend_quiet]
  | .forSome vs g => by
    rw [checkGoal, checkGoal, List.filter_append, errors_checkVariables,
      errors_checkGoal (d.extend vs scope) g, extend_quiet]
  | .unsupported feature => by
    rw [checkGoal, checkGoal, errors_checkFeature]

theorem errors_checkGoals (scope : Scope) : ∀ gs : List Goal,
    (d.checkGoals context scope gs).filter Diagnostic.isError = d.quiet.checkGoals context scope gs
  | [] => rfl
  | g :: gs => by
    rw [checkGoals, checkGoals, List.filter_append, errors_checkGoal scope g,
      errors_checkGoals scope gs]

end

mutual

theorem errors_checkEffect (scope : Scope) : ∀ e : Effect,
    (d.checkEffect context scope e).filter Diagnostic.isError =
      d.quiet.checkEffect context scope e
  | .add a => by
    rw [checkEffect, checkEffect, errors_checkAtom]
  | .delete a => by
    rw [checkEffect, checkEffect, errors_checkAtom]
  | .and es => by
    rw [checkEffect, checkEffect, errors_checkEffects scope es]
  | .when guard e => by
    rw [checkEffect, checkEffect, List.filter_append, errors_checkGoal,
      errors_checkEffect scope e]
  | .forAll vs e => by
    rw [checkEffect, checkEffect, List.filter_append, errors_checkVariables,
      errors_checkEffect (d.extend vs scope) e, extend_quiet]
  | .unsupported feature => by
    rw [checkEffect, checkEffect, errors_checkFeature]

theorem errors_checkEffects (scope : Scope) : ∀ es : List Effect,
    (d.checkEffects context scope es).filter Diagnostic.isError =
      d.quiet.checkEffects context scope es
  | [] => rfl
  | e :: es => by
    rw [checkEffects, checkEffects, List.filter_append, errors_checkEffect scope e,
      errors_checkEffects scope es]

end

/-- Both runs declare the same, and check each item before they declare it. -/
theorem declareEach_quiet {α : Type} {declare : Declarations → α → Declarations}
    {check : Declarations → α → List Diagnostic}
    (declares : ∀ d a, declare (quiet d) a = (declare d a).quiet)
    (checks : ∀ d a, (check d a).filter Diagnostic.isError = check (quiet d) a) (as : List α)
    (d : Declarations) :
    declareEach declare check as d.quiet =
      ((declareEach declare check as d).1.filter Diagnostic.isError,
        (declareEach declare check as d).2.quiet) := by
  induction as generalizing d with
  | nil => rfl
  | cons a as ih =>
    simp only [declareEach, declares, ih, List.filter_append, checks]

theorem declareObject_quiet (o : TypedName) :
    d.quiet.declareObject o = (d.declareObject o).quiet := by
  unfold declareObject
  rw [apply_ite quiet, objects_quiet]
  rfl

theorem errors_checkObject (o : TypedName) :
    (checkObject context d o).filter Diagnostic.isError = checkObject context d.quiet o := by
  unfold checkObject
  rw [List.filter_append, errors_checkType, errors_ite, errors_warning, List.filter_nil,
    objects_quiet]

theorem declarePredicate_quiet (p : Predicate) :
    d.quiet.declarePredicate p = (d.declarePredicate p).quiet := rfl

theorem errors_checkPredicate (p : Predicate) :
    (d.checkPredicate p).filter Diagnostic.isError = d.quiet.checkPredicate p := by
  unfold checkPredicate
  rw [List.filter_append, errors_checkVariables, errors_ite, errors_error, List.filter_nil,
    predicates_quiet]

theorem declareDerived_quiet (r : Derived) :
    d.quiet.declareDerived r = (d.declareDerived r).quiet := by
  unfold declareDerived
  rw [apply_ite quiet, predicates_quiet, declarePredicate_quiet]

theorem errors_checkDerivedHead (r : Derived) :
    (d.checkDerivedHead r).filter Diagnostic.isError = d.quiet.checkDerivedHead r := by
  unfold checkDerivedHead
  rw [errors_ite, errors_checkVariables, List.filter_nil, predicates_quiet]

theorem errors_checkActionsAfter (before : List String) (as : List Action) :
    (d.checkActionsAfter before as).filter Diagnostic.isError =
      d.quiet.checkActionsAfter before as := by
  induction as generalizing before with
  | nil => rfl
  | cons a as ih =>
    rw [checkActionsAfter, checkActionsAfter]
    simp only [List.filter_append, errors_ite, errors_error, List.filter_nil,
      errors_checkVariables, errors_checkGoal, errors_checkEffect, extend_quiet, ih]

theorem errors_checkDerivedBody (r : Derived) :
    (d.checkDerivedBody r).filter Diagnostic.isError = d.quiet.checkDerivedBody r := by
  unfold checkDerivedBody
  rw [List.filter_append, errors_checkVariables, errors_checkGoal, extend_quiet]

theorem errors_checkAxiomsFrom (n : Nat) (as : List Axiom) :
    (d.checkAxiomsFrom n as).filter Diagnostic.isError = d.quiet.checkAxiomsFrom n as := by
  induction as generalizing n with
  | nil => rfl
  | cons a as ih =>
    rw [checkAxiomsFrom, checkAxiomsFrom]
    simp only [List.filter_append, errors_checkVariables, errors_checkGoal, extend_quiet, ih]
    congr 2
    cases a.implies with
    | atom head => exact errors_checkAtom d _ _ head
    | _ => rfl

theorem errors_checkRequirements (requirements : List String) :
    (d.checkRequirements requirements context).filter Diagnostic.isError =
      d.quiet.checkRequirements requirements context :=
  errors_flatMap requirements fun r => by rw [errors_ite, errors_warning, List.filter_nil]

theorem errors_checkSuperTypes (types : List TypedName) :
    (d.checkSuperTypes types).filter Diagnostic.isError = d.quiet.checkSuperTypes types :=
  errors_flatMap types fun t => by rw [errors_ite, errors_warning, List.filter_nil]

end Declarations

open Declarations in
/-- Warnings never change a verdict. The report of a check that is not asked for them consists of
the errors of one that is, in their order, so both have the same errors and pass alike. -/
theorem typecheck_quiet (domain : Domain) (problem : Problem) :
    (typecheck false domain problem).diagnostics = (typecheck true domain problem).errors ∧
    (typecheck false domain problem).errors = (typecheck true domain problem).errors ∧
    (typecheck false domain problem).passed = (typecheck true domain problem).passed := by
  have start (types : TypeHierarchy) :
      ({ verbose := false, types } : Declarations) = quiet { verbose := true, types } := rfl
  have objects (context : String) := declareEach_quiet declareObject_quiet
    fun d => errors_checkObject d context
  have predicates := declareEach_quiet declarePredicate_quiet errors_checkPredicate
  have heads := declareEach_quiet declareDerived_quiet errors_checkDerivedHead
  -- after the types both runs go along, whatever has been found wrong with those
  have same :
      (typecheck false domain problem).diagnostics = (typecheck true domain problem).errors := by
    unfold typecheck Report.errors
    cases typeHierarchy domain.types <;>
      simp only [start, objects, predicates, heads, List.filter_append, List.filter_nil,
        errors_error, errors_ite, errors_checkSuperTypes, errors_checkRequirements,
        errors_checkActionsAfter, errors_checkAxiomsFrom, errors_checkGoal,
        errors_flatMap _ (errors_checkDerivedBody _),
        errors_flatMap _ (errors_checkAtom _ _ _)]
  have errors :
      (typecheck false domain problem).errors = (typecheck true domain problem).errors := by
    unfold Report.errors at same ⊢
    rw [same, List.filter_filter]
    simp only [Bool.and_self]
  refine ⟨same, errors, ?_⟩
  rw [Bool.eq_iff_iff, Report.passed_iff_errors_eq_nil, Report.passed_iff_errors_eq_nil, errors]

/-- A requirement that nothing can meet passes quietly, and is told about on demand. -/
example : (typecheck false { name := "d", requirements := [":fluents"] }
      { name := "p", domainName := "d" }).diagnostics = [] ∧
    (typecheck true { name := "d", requirements := [":fluents"] }
      { name := "p", domainName := "d" }).diagnostics.length = 1 := by
  decide +kernel

end Definition
end TypedPlanning
