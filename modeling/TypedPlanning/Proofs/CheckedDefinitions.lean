import TypedPlanning.Proofs.Checking
import TypedPlanning.Proofs.Construction

/-! Definitions that pass the static check make a problem. What the check overlooks is the spelling
of declared names, and constructs in the bodies of rules that cannot be decided. -/

namespace TypedPlanning
open Fallible

namespace Definition
namespace Declarations
variable {d d' : Declarations} {v : Vocabulary}

/-- One is declared after the other, and each is clean when its turn comes. -/
inductive Declares {α : Type} (declare : Declarations → α → Declarations)
    (check : Declarations → α → List Diagnostic) :
    List α → Declarations → Declarations → Prop where
  | nil (d : Declarations) : Declares declare check [] d d
  | cons {a : α} {as : List α} {d d' : Declarations} :
    Clean (check d a) → Declares declare check as (declare d a) d' →
      Declares declare check (a :: as) d d'

theorem declares_of_clean {α : Type} {declare : Declarations → α → Declarations}
    {check : Declarations → α → List Diagnostic} {as : List α}
    (clean : Clean (declareEach declare check as d).1) :
    Declares declare check as d (declareEach declare check as d).2 := by
  induction as generalizing d with
  | nil => exact .nil d
  | cons a as ih =>
    simp only [declareEach, clean_append] at clean
    exact .cons clean.1 (ih clean.2)

/-- If every single declaration can be followed on the other side, so can all of them. -/
theorem Declares.simulates {α : Type} {declare : Declarations → α → Declarations}
    {check : Declarations → α → List Diagnostic} {step : Vocabulary → α → Except Error Vocabulary}
    {allowed : Error → Prop} {R : Declarations → Vocabulary → Prop} {as : List α}
    (checked : Declares declare check as d d')
    (each : ∀ a ∈ as, ∀ d v, R d v → Clean (check d a) → FailsOnly allowed (step v a) ∧
      ∀ v', step v a = .ok v' → R (declare d a) v') (related : R d v) :
    FailsOnly allowed (as.foldlM step v) ∧ ∀ v', as.foldlM step v = .ok v' → R d' v' := by
  induction checked generalizing v with
  | nil d =>
    refine ⟨failsOnly_ok v, fun v' same => ?_⟩
    obtain rfl := Except.ok.inj same
    exact related
  | @cons a as d d' clean _ ih =>
    obtain ⟨first, rest⟩ := List.forall_mem_cons.mp each
    obtain ⟨fails, moves⟩ := first d v related clean
    rw [List.foldlM_cons]
    refine ⟨fails.bind fun w moved => (ih rest (moves w moved)).1, fun v' done => ?_⟩
    obtain ⟨w, moved, done⟩ := bind_eq_ok.mp done
    exact (ih rest (moves w moved)).2 v' done

theorem lookup_declareObject {o : TypedName} (typed : o.type ∈ d.types.types) (name : String) :
    (d.declareObject o).objects.lookup name =
      (d.objects.lookup name).or (if o.name = name then some (some o.type) else none) := by
  have type : d.types.get? o.type = some o.type := TypeHierarchy.get?_eq_some.mpr ⟨typed, rfl⟩
  unfold declareObject
  split
  · next known =>
    obtain ⟨found, known⟩ := Option.isSome_iff_exists.mp known
    by_cases same : o.name = name
    · rw [← same, known, Option.some_or]
    · rw [if_neg same, Option.or_none]
  · next fresh =>
    rw [Bool.not_eq_true, Option.isSome_eq_false_iff, Option.isNone_iff_eq_none] at fresh
    rw [List.lookup_cons, type]
    by_cases same : o.name = name
    · subst same
      simp [fresh]
    · simp [beq_false_of_ne (Ne.symm same), same]

/-- Objects that are declared cleanly have declared types, and nothing but objects is declared. Of
two with one name the first counts. -/
theorem Declares.objects {context : String} {os : List TypedName}
    (declared : Declares declareObject (checkObject context) os d d') :
    (∀ o ∈ os, o.type ∈ d.types.types) ∧ d'.types = d.types ∧ d'.predicates = d.predicates ∧
      ∀ name, d'.objects.lookup name =
        (d.objects.lookup name).or ((os.find? (·.name == name)).map fun o => some o.type) := by
  induction declared with
  | nil d => simp
  | @cons o os d d' clean _ ih =>
    have kept : (d.declareObject o).types = d.types ∧
        (d.declareObject o).predicates = d.predicates := by
      unfold declareObject
      split <;> exact ⟨rfl, rfl⟩
    obtain ⟨typed, types, predicates, objects⟩ := ih
    rw [kept.1] at typed types
    rw [kept.2] at predicates
    rw [checkObject, clean_append] at clean
    have first := mem_types_of_clean clean.1
    refine ⟨List.forall_mem_cons.mpr ⟨first, typed⟩, types, predicates, fun name => ?_⟩
    rw [objects, lookup_declareObject first, Option.or_assoc, List.find?_cons]
    by_cases same : o.name = name
    · simp [same]
    · simp [same, beq_false_of_ne same]

theorem Records.declarePredicate (records : d.Records v) (coherent : v.predicates.Coherent)
    {p : Predicate} (typed : ∀ x ∈ p.parameters, x.type ∈ d.types.types) :
    (d.declarePredicate p).Records
      { v with predicates := v.predicates.insert (Signature.of p) } := by
  refine ⟨records.types, records.objects, fun name => ?_⟩
  rw [coherent.get?_insert, Declarations.declarePredicate, List.lookup_cons]
  by_cases same : name = p.name
  · subst same
    have here : p.name = Named.name (Signature.of p) := rfl
    have types : d.typesOf p.parameters = (Signature.of p).parameters.map some := by
      rw [typesOf, Signature.of, List.map_map]
      exact List.map_congr_left fun x hx => TypeHierarchy.get?_eq_some.mpr ⟨typed x hx, rfl⟩
    rw [if_pos here, beq_self_eq_true, types, Option.map_some]
  · have elsewhere : ¬ name = Named.name (Signature.of p) := same
    rw [if_neg elsewhere, beq_false_of_ne same]
    exact records.predicates name

end Declarations

/-- All names that calls and facts may have to mention. -/
def declaredNames (domain : Domain) (problem : Problem) : List String :=
  (domain.constants ++ problem.objects).map TypedName.name ++
    domain.predicates.map Predicate.name ++ domain.derived.map (·.head.name) ++
    domain.actions.map Action.name

theorem mem_declaredNames {domain : Domain} {problem : Problem} {name : String} :
    name ∈ declaredNames domain problem ↔
      (∃ o ∈ domain.constants ++ problem.objects, o.name = name) ∨
      (∃ p ∈ domain.predicates, p.name = name) ∨ (∃ r ∈ domain.derived, r.head.name = name) ∨
      ∃ a ∈ domain.actions, a.name = name := by
  simp only [declaredNames, List.mem_append, List.mem_map, or_assoc]

def ruleFeatures (domain : Domain) : List Feature :=
  domain.derived.flatMap (·.body.features) ++ domain.axioms.flatMap (·.context.features)

/-- The errors that definitions can still have after they have passed the check. -/
inductive Overlooked (domain : Domain) (problem : Problem) : Error → Prop where
  | invalidName {name : String} : name ∈ declaredNames domain problem →
    Text.isName name = false → Overlooked domain problem (.definition (.invalidName name))
  | unsupported {feature : Feature} : feature ∈ ruleFeatures domain →
    Overlooked domain problem (.unsupported feature)

variable {domain : Domain} {problem : Problem} {d d' : Declarations} {v : Vocabulary}
  {context : String}

theorem failsOnly_expectName {α : Type} {name : String} {x : Except Error α}
    (declared : name ∈ declaredNames domain problem)
    (rest : FailsOnly (Overlooked domain problem) x) :
    FailsOnly (Overlooked domain problem) (Vocabulary.expectName name >>= fun _ => x) := by
  unfold Vocabulary.expectName
  split
  · exact rest
  · next unnamed => exact failsOnly_error (.invalidName declared (Bool.eq_false_iff.mpr unnamed))

theorem failsOnly_declarePredicate {p : Predicate}
    (declared : p.name ∈ declaredNames domain problem)
    (typed : ∀ x ∈ p.parameters, x.type ∈ v.objects.types.types) :
    FailsOnly (Overlooked domain problem) (v.declarePredicate p) := by
  refine failsOnly_expectName declared ?_
  rw [Vocabulary.signature_eq_ok.mpr ⟨typed, rfl⟩]
  exact failsOnly_ok _

open Declarations

def Alike (d : Declarations) (v : Vocabulary) : Prop := d.Records v ∧ v.predicates.Coherent

theorem Alike.declarePredicate (alike : Alike d v) {p : Predicate}
    (declared : p.name ∈ declaredNames domain problem)
    (clean : Clean (d.checkVariables p.parameters context)) :
    FailsOnly (Overlooked domain problem) (v.declarePredicate p) ∧
      ∀ v', v.declarePredicate p = .ok v' → Alike (d.declarePredicate p) v' := by
  have typed := alike.1.toMatches.typed_of_clean clean
  refine ⟨failsOnly_declarePredicate declared typed, fun v' done => ?_⟩
  obtain ⟨-, -, rfl⟩ := Vocabulary.declarePredicate_eq_ok.mp done
  exact ⟨alike.1.declarePredicate alike.2 (mem_types_of_clean_variables clean), alike.2.insert _⟩

theorem Alike.declareDerived (alike : Alike d v) {r : Derived}
    (declared : r.head.name ∈ declaredNames domain problem)
    (clean : Clean (d.checkDerivedHead r)) :
    FailsOnly (Overlooked domain problem) (v.declareDerived r) ∧
      ∀ v', v.declareDerived r = .ok v' → Alike (d.declareDerived r) v' := by
  have same : v.predicates.contains r.head.name = (d.predicates.lookup r.head.name).isSome := by
    rw [NamedTable.contains, alike.1.predicates, Option.isSome_map]
  rw [Declarations.declareDerived]
  rw [checkDerivedHead] at clean
  cases known : (d.predicates.lookup r.head.name).isSome with
  | true =>
    rw [known] at same
    refine ⟨?_, fun v' done => ?_⟩
    · rw [Vocabulary.declareDerived, if_pos same]
      exact failsOnly_expectName declared (failsOnly_ok v)
    · obtain ⟨-, rfl⟩ := (Vocabulary.declareDerived_of_contains same).mp done
      exact alike
  | false =>
    rw [known] at same clean
    rw [Vocabulary.declareDerived_of_not_contains same]
    exact alike.declarePredicate declared clean

theorem Alike.declarePredicates (alike : Alike d v)
    (checked : Declares Declarations.declarePredicate checkPredicate domain.predicates d d')
    (problem : Problem) :
    FailsOnly (Overlooked domain problem)
      (domain.predicates.foldlM Vocabulary.declarePredicate v) ∧
      ∀ v', domain.predicates.foldlM Vocabulary.declarePredicate v = .ok v' → Alike d' v' := by
  refine checked.simulates (fun p hp d v alike clean => ?_) alike
  refine alike.declarePredicate ?_ (clean_append.mp clean).1
  exact mem_declaredNames.mpr (.inr (.inl ⟨p, hp, rfl⟩))

theorem Alike.declareDerivations (alike : Alike d v)
    (checked : Declares Declarations.declareDerived checkDerivedHead domain.derived d d')
    (problem : Problem) :
    FailsOnly (Overlooked domain problem) (domain.derived.foldlM Vocabulary.declareDerived v) ∧
      ∀ v', domain.derived.foldlM Vocabulary.declareDerived v = .ok v' → Alike d' v' := by
  refine checked.simulates (fun r hr d v alike clean => ?_) alike
  refine alike.declareDerived ?_ clean
  exact mem_declaredNames.mpr (.inr (.inr (.inl ⟨r, hr, rfl⟩)))

theorem alike_of_objects {d₀ d₁ d₂ : Declarations} (objects_nil : d₀.objects = [])
    (predicates_nil : d₀.predicates = [])
    (constants : Declares declareObject (checkObject "the domain constants") domain.constants d₀ d₁)
    (objects : Declares declareObject (checkObject "the problem objects") problem.objects d₁ d₂) :
    (∀ o ∈ domain.constants ++ problem.objects, o.type ∈ d₀.types.types) ∧
      Alike d₂
        ⟨.ofList d₀.types ((domain.constants ++ problem.objects).map Object.of), .empty⟩ := by
  obtain ⟨typed₁, types₁, predicates₁, known₁⟩ := constants.objects
  obtain ⟨typed₂, types₂, predicates₂, known₂⟩ := objects.objects
  constructor
  · rw [types₁] at typed₂
    exact List.forall_mem_append.mpr ⟨typed₁, typed₂⟩
  · refine ⟨⟨?_, fun name => ?_, fun name => ?_⟩, NamedTable.coherent_empty⟩
    · rw [ObjectTable.types_ofList, types₂, types₁]
    · rw [known₂, known₁, objects_nil, ObjectTable.get?_ofList, List.find?_map, Option.map_map,
        List.lookup_nil, Option.none_or, ← Option.map_or, ← List.find?_append]
      rfl
    · rw [predicates₂, predicates₁, predicates_nil, NamedTable.get?_empty]
      rfl

/-- A domain and a problem that pass the check have a vocabulary that knows what the check knows. -/
theorem simulates_ofDefinitions {d₀ d₁ d₂ d₃ d₄ : Declarations}
    (hierarchy : typeHierarchy domain.types = .ok d₀.types) (objects_nil : d₀.objects = [])
    (predicates_nil : d₀.predicates = [])
    (constants : Declares declareObject (checkObject "the domain constants") domain.constants d₀ d₁)
    (objects : Declares declareObject (checkObject "the problem objects") problem.objects d₁ d₂)
    (predicates : Declares declarePredicate checkPredicate domain.predicates d₂ d₃)
    (derived : Declares declareDerived checkDerivedHead domain.derived d₃ d₄) :
    FailsOnly (Overlooked domain problem) (Vocabulary.ofDefinitions domain problem) ∧
      ∀ v, Vocabulary.ofDefinitions domain problem = .ok v → d₄.Records v := by
  obtain ⟨typed, start⟩ := alike_of_objects objects_nil predicates_nil constants objects
  obtain ⟨fails₃, alike₃⟩ := start.declarePredicates predicates problem
  constructor
  · rw [Vocabulary.ofDefinitions, hierarchy]
    show FailsOnly _ (List.mapM _ _ >>= _)
    refine FailsOnly.bind (failsOnly_mapM fun o ho => ?_) fun os declared => ?_
    · refine failsOnly_expectName (mem_declaredNames.mpr (.inl ⟨o, ho, rfl⟩)) ?_
      rw [TypeHierarchy.get?_eq_some.mpr ⟨typed o ho, rfl⟩]
      exact failsOnly_ok _
    · obtain ⟨-, rfl⟩ := (mapM_checked fun _ _ => Vocabulary.declaredObject_eq_ok).mp declared
      exact fails₃.bind fun v done => ((alike₃ v done).declareDerivations derived problem).1
  · intro v done
    obtain ⟨types, typed', -, w, declared, done⟩ := Vocabulary.ofDefinitions_eq_ok.mp done
    obtain rfl := Except.ok.inj (hierarchy.symm.trans typed')
    exact (((alike₃ w declared).declareDerivations derived problem).2 v done).1

/-- Definitions that pass the check. With all that is declared in the end, it finds no error in what
uses the declarations, and a vocabulary that can be made records them. -/
structure Passes (domain : Domain) (problem : Problem) (d : Declarations) : Prop where
  sameDomain : domain.name = problem.domainName
  vocabulary : FailsOnly (Overlooked domain problem) (Vocabulary.ofDefinitions domain problem)
  records : ∀ v, Vocabulary.ofDefinitions domain problem = .ok v → d.Records v
  actions : Clean (d.checkActionsAfter [] domain.actions)
  bodies : ∀ r ∈ domain.derived, Clean (d.checkDerivedBody r)
  axioms : Clean (d.checkAxiomsFrom 1 domain.axioms)
  initial : ∀ a ∈ problem.initial, Clean (d.checkAtom [] "the initial state" a)
  goal : Clean (d.checkGoal "the goal" [] problem.goal)

theorem exists_passes_of_passed {verbose : Bool}
    (passed : (typecheck verbose domain problem).passed = true) : ∃ d, Passes domain problem d := by
  have clean := (Report.passed_iff_clean _).mp passed
  cases hierarchy : typeHierarchy domain.types with
  | error fault =>
    simp only [typecheck, hierarchy, clean_append, not_clean_error, false_and] at clean
  | ok types =>
    simp only [typecheck, hierarchy, clean_append] at clean
    obtain ⟨⟨⟨⟨⟨⟨⟨⟨⟨⟨-, sameDomain⟩, constants⟩, objects⟩, predicates⟩, heads⟩, actions⟩, bodies⟩,
      axioms⟩, initial⟩, goal⟩ := clean
    have constants_declared := declares_of_clean constants
    obtain ⟨fails, records⟩ := simulates_ofDefinitions
      hierarchy rfl rfl constants_declared (declares_of_clean objects)
      (declares_of_clean predicates) (declares_of_clean heads)
    exact ⟨_, (clean_ite_error sameDomain).1, fails, records, actions, clean_flatMap.mp bodies,
      axioms, clean_flatMap.mp initial, goal⟩

end Definition

namespace Problem
open Definition Declarations

variable {verbose : Bool} {domain : Definition.Domain} {problem : Definition.Problem}

theorem failsOnly_fire {v : Vocabulary} {derived axioms : List Rule}
    (derived_translated : domain.derived.mapM v.derivedRule = .ok derived)
    (axioms_translated : domain.axioms.mapM v.rule = .ok axioms) :
    ∀ r ∈ derived ++ axioms, ∀ s,
      FailsOnly (Overlooked domain problem) ((r.fire v.objects).result s) := by
  intro r hr s
  obtain hr | hr := List.mem_append.mp hr
  · obtain ⟨d, hd, translated⟩ := exists_of_mem_right (mapM_eq_ok.mp derived_translated) hr
    obtain ⟨closed, features⟩ := Vocabulary.closed_of_derivedRule translated
    refine (Rule.failsOnly_fire closed s).mono ?_
    rintro _ ⟨feature, found, rfl⟩
    refine .unsupported (List.mem_append_left _ (List.mem_flatMap.mpr ⟨d, hd, ?_⟩))
    exact features ▸ found
  · obtain ⟨a, ha, translated⟩ := exists_of_mem_right (mapM_eq_ok.mp axioms_translated) hr
    obtain ⟨closed, features⟩ := Vocabulary.closed_of_rule translated
    refine (Rule.failsOnly_fire closed s).mono ?_
    rintro _ ⟨feature, found, rfl⟩
    refine .unsupported (List.mem_append_right _ (List.mem_flatMap.mpr ⟨a, ha, ?_⟩))
    exact features ▸ found

/-- With a vocabulary that records what the check has declared, everything after it succeeds too,
but for what the check overlooks. -/
theorem failsOnly_of_passes {d : Declarations} (passes : Passes domain problem d) :
    FailsOnly (Overlooked domain problem) (ofDefinitions domain problem) := by
  rw [ofDefinitions_eq, if_neg (not_not.mpr passes.sameDomain)]
  refine passes.vocabulary.bind fun v made => ?_
  have agree : d.Matches v := (passes.records v made).toMatches
  refine FailsOnly.bind (failsOnly_foldlM (fun table a ha => ?_) _) fun _ _ => ?_
  · refine failsOnly_expectName (mem_declaredNames.mpr (.inr (.inr (.inr ⟨a, ha, rfl⟩)))) ?_
    exact (failsOnly_of_exists (exists_action_of_clean agree passes.actions a ha)).bind
      fun _ _ => failsOnly_ok _
  refine FailsOnly.bind (failsOnly_mapM fun r hr => ?_) fun derived hderived => ?_
  · exact failsOnly_of_exists (exists_derivedRule_of_clean agree (passes.bodies r hr))
  refine FailsOnly.bind (failsOnly_mapM fun a ha => ?_) fun axioms haxioms => ?_
  · exact failsOnly_of_exists (exists_rule_of_clean agree passes.axioms a ha)
  refine FailsOnly.bind (failsOnly_mapM fun a ha => ?_) fun facts _ => ?_
  · exact failsOnly_of_exists (exists_proposition_of_clean agree (passes.initial a ha))
  refine FailsOnly.bind (Rule.failsOnly_close (failsOnly_fire hderived haxioms) _) fun _ _ => ?_
  refine FailsOnly.bind ?_ fun _ _ => failsOnly_ok _
  exact failsOnly_of_exists (exists_formula_of_clean agree inside_nil passes.goal)

theorem failsOnly_of_passed (passed : (typecheck verbose domain problem).passed = true) :
    FailsOnly (Overlooked domain problem) (ofDefinitions domain problem) := by
  obtain ⟨d, passes⟩ := exists_passes_of_passed passed
  exact failsOnly_of_passes passes

/-- The check covers the construction of problems: what passes it is a problem up to what the check
overlooks, and all other faults of definitions are reported. -/
theorem ofDefinitions_covered_by_typecheck (verbose : Bool) (domain : Definition.Domain)
    (problem : Definition.Problem) :
    ((typecheck verbose domain problem).passed = true →
      FailsOnly (Overlooked domain problem) (ofDefinitions domain problem)) ∧
    ∀ fault, (∀ name, fault ≠ .invalidName name) →
      ofDefinitions domain problem = .error (.definition fault) →
        (typecheck verbose domain problem).errors ≠ [] := by
  refine ⟨failsOnly_of_passed, fun fault spelling failed silent => ?_⟩
  have passed := (Report.passed_iff_errors_eq_nil _).mpr silent
  have overlooked := failsOnly_of_passed passed _ failed
  cases overlooked with
  | invalidName => exact spelling _ rfl

def torchProblem : Definition.Problem :=
  { lampProblem with goal := .atom ⟨"lit", [.name "torch"]⟩ }

theorem typecheck_lamps :
    FailsOnly (Overlooked lampDomain lampProblem) (ofDefinitions lampDomain lampProblem) ∧
    (typecheck true lampDomain torchProblem).errors ≠ [] := by
  have passed : (typecheck true lampDomain lampProblem).passed = true := by decide +kernel
  have failed : ofDefinitions lampDomain torchProblem =
      .error (.definition (.unknownObject "torch")) := by
    refine (map_eq_error (fun _ => ())).mp ?_
    decide +kernel
  constructor
  · exact (ofDefinitions_covered_by_typecheck true lampDomain lampProblem).1 passed
  · exact (ofDefinitions_covered_by_typecheck true lampDomain torchProblem).2
      (.unknownObject "torch") (fun _ same => nomatch same) failed

end Problem
end TypedPlanning
