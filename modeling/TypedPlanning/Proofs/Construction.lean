import TypedPlanning.Problem
import TypedPlanning.Proofs.Closing
import TypedPlanning.Proofs.Tables
import TypedPlanning.Proofs.Translation

/-! What has been found out when a vocabulary or a problem is made from its definitions: which names
refer to what, and which parts of the problem come from which parts of the definitions. -/

namespace TypedPlanning
open Fallible

def Signature.of (p : Definition.Predicate) : Signature :=
  ⟨p.name, p.parameters.map Definition.TypedName.type⟩

namespace Vocabulary
variable {v : Vocabulary}

theorem signature_eq_ok {p : Definition.Predicate} {signature : Signature} :
    v.signature p = .ok signature ↔
      (∀ d ∈ p.parameters, d.type ∈ v.objects.types.types) ∧ signature = Signature.of p := by
  have types {ts : List String} : p.parameters.mapM (fun d => v.type d.type) = .ok ts ↔ _ :=
    mapM_checked fun d t => type_eq_ok
  simp only [Vocabulary.signature, bind_pure_eq_ok, types]
  constructor
  · rintro ⟨ts, ⟨declared, rfl⟩, rfl⟩
    exact ⟨declared, rfl⟩
  · rintro ⟨declared, rfl⟩
    exact ⟨_, ⟨declared, rfl⟩, rfl⟩

theorem declarePredicate_eq_ok {v' : Vocabulary} {p : Definition.Predicate} :
    v.declarePredicate p = .ok v' ↔
      Text.isName p.name = true ∧ (∀ d ∈ p.parameters, d.type ∈ v.objects.types.types) ∧
        v' = { v with predicates := v.predicates.insert (Signature.of p) } := by
  rw [declarePredicate, expectName_bind_eq_ok]
  refine and_congr_right fun _ => ?_
  simp only [bind_pure_eq_ok, signature_eq_ok]
  constructor
  · rintro ⟨signature, ⟨declared, rfl⟩, rfl⟩
    exact ⟨declared, rfl⟩
  · rintro ⟨declared, rfl⟩
    exact ⟨_, ⟨declared, rfl⟩, rfl⟩

theorem declareDerived_of_contains {d : Definition.Derived} {v' : Vocabulary}
    (declared : v.predicates.contains d.head.name = true) :
    v.declareDerived d = .ok v' ↔ Text.isName d.head.name = true ∧ v' = v := by
  rw [declareDerived, expectName_bind_eq_ok, if_pos declared]
  exact and_congr_right fun _ => by simp [pure, Except.pure, eq_comm]

theorem declareDerived_of_not_contains {d : Definition.Derived}
    (fresh : v.predicates.contains d.head.name = false) :
    v.declareDerived d = v.declarePredicate d.head := by
  rw [declareDerived, declarePredicate, fresh]
  rfl

/-- What a vocabulary keeps while predicates are declared. -/
structure Sound (objects : ObjectTable) (v : Vocabulary) : Prop where
  objects_eq : v.objects = objects
  predicates : v.predicates.Coherent
  readable : ∀ {name : String} {signature : Signature},
    v.predicates.get? name = some signature → Text.isName name = true

variable {objects : ObjectTable} {v' : Vocabulary}

theorem Sound.declarePredicate {p : Definition.Predicate} (sound : v.Sound objects)
    (declared : v.declarePredicate p = .ok v') : v'.Sound objects := by
  obtain ⟨named, -, rfl⟩ := declarePredicate_eq_ok.mp declared
  refine ⟨sound.objects_eq, sound.predicates.insert _, fun {name signature} found => ?_⟩
  rw [sound.predicates.get?_insert] at found
  split at found
  · next same => exact same ▸ named
  · exact sound.readable found

theorem Sound.declareDerived {d : Definition.Derived} (sound : v.Sound objects)
    (declared : v.declareDerived d = .ok v') : v'.Sound objects := by
  cases already : v.predicates.contains d.head.name with
  | true =>
    obtain ⟨-, rfl⟩ := (declareDerived_of_contains already).mp declared
    exact sound
  | false =>
    rw [declareDerived_of_not_contains already] at declared
    exact sound.declarePredicate declared

theorem Sound.isSome_declareDerived {d : Definition.Derived} (sound : v.Sound objects)
    (declared : v.declareDerived d = .ok v') {name : String}
    (known : name = d.head.name ∨ (v.predicates.get? name).isSome = true) :
    (v'.predicates.get? name).isSome = true := by
  cases already : v.predicates.contains d.head.name with
  | true =>
    obtain ⟨-, rfl⟩ := (declareDerived_of_contains already).mp declared
    obtain rfl | known := known
    · exact already
    · exact known
  | false =>
    rw [declareDerived_of_not_contains already] at declared
    obtain ⟨-, -, rfl⟩ := declarePredicate_eq_ok.mp declared
    rw [sound.predicates.get?_insert]
    split
    · rfl
    · next other => exact known.resolve_left other

theorem Sound.isSome_foldlM_declareDerived {ds : List Definition.Derived} (sound : v.Sound objects)
    (declared : ds.foldlM Vocabulary.declareDerived v = .ok v') {name : String}
    (known : (∃ d ∈ ds, name = d.head.name) ∨ (v.predicates.get? name).isSome = true) :
    (v'.predicates.get? name).isSome = true := by
  induction ds generalizing v with
  | nil =>
    obtain rfl := Except.ok.inj declared
    simpa using known
  | cons d ds ih =>
    rw [List.foldlM_cons] at declared
    obtain ⟨w, first, rest⟩ := bind_eq_ok.mp declared
    refine ih (sound.declareDerived first) rest ?_
    simp only [List.mem_cons, exists_eq_or_imp] at known
    obtain (same | later) | known := known
    · exact .inr (sound.isSome_declareDerived first (.inl same))
    · exact .inl later
    · exact .inr (sound.isSome_declareDerived first (.inr known))

def ofObjects (types : TypeHierarchy) (ds : List Definition.TypedName) : Vocabulary :=
  ⟨.ofList types (ds.map Object.of), .empty⟩

theorem sound_ofObjects (types : TypeHierarchy) (ds : List Definition.TypedName) :
    (ofObjects types ds).Sound (.ofList types (ds.map Object.of)) := by
  refine ⟨rfl, NamedTable.coherent_empty, fun found => ?_⟩
  rw [ofObjects, NamedTable.get?_empty] at found
  cases found

variable {domain : Definition.Domain} {problem : Definition.Problem}

theorem ofDefinitions_eq_ok : ofDefinitions domain problem = .ok v ↔
    ∃ types, Definition.typeHierarchy domain.types = .ok types ∧
      (∀ d ∈ domain.constants ++ problem.objects,
        Text.isName d.name = true ∧ d.type ∈ types.types) ∧
      ∃ v₁, domain.predicates.foldlM Vocabulary.declarePredicate
          (ofObjects types (domain.constants ++ problem.objects)) = .ok v₁ ∧
        domain.derived.foldlM Vocabulary.declareDerived v₁ = .ok v := by
  have objects {types : TypeHierarchy} {os : List Object} :
      (domain.constants ++ problem.objects).mapM (declaredObject types) = .ok os ↔ _ :=
    mapM_checked fun _ _ => declaredObject_eq_ok
  rw [ofDefinitions]
  simp only [bind_eq_ok, mapError_eq_ok, objects]
  constructor
  · rintro ⟨types, typed, os, ⟨checked, rfl⟩, declared⟩
    exact ⟨types, typed, checked, declared⟩
  · rintro ⟨types, typed, checked, declared⟩
    exact ⟨types, typed, _, ⟨checked, rfl⟩, declared⟩

/-- The objects are those declared, in their order, constants first; all their names can be read,
and so can those of the predicates. Every head of a derivation is declared. -/
theorem sound_ofDefinitions (made : ofDefinitions domain problem = .ok v) :
    ∃ types, Definition.typeHierarchy domain.types = .ok types ∧
      (∀ d ∈ domain.constants ++ problem.objects,
        Text.isName d.name = true ∧ d.type ∈ types.types) ∧
      v.Sound (.ofList types ((domain.constants ++ problem.objects).map Object.of)) ∧
      ∀ d ∈ domain.derived, (v.predicates.get? d.head.name).isSome = true := by
  obtain ⟨types, typed, checked, v₁, predicates, derived⟩ := ofDefinitions_eq_ok.mp made
  have middle := foldlM_invariant (fun w _ _ w' => Sound.declarePredicate)
    (sound_ofObjects types _) predicates
  have sound := foldlM_invariant (fun w _ _ w' => Sound.declareDerived) middle derived
  refine ⟨types, typed, checked, sound, fun d hd => ?_⟩
  exact middle.isSome_foldlM_declareDerived derived (.inl ⟨d, hd, rfl⟩)

end Vocabulary

namespace Problem
variable {v : Vocabulary} {p : Problem} {domain : Definition.Domain}
  {problem : Definition.Problem}

theorem closed_eq_result (p : Problem) (s : State) : p.closed s = p.close.result s := by
  rw [closed, Update.result]
  cases p.close.run s <;> rfl

/-- Where the parts of a problem come from. -/
structure MadeFrom (domain : Definition.Domain) (problem : Definition.Problem) (v : Vocabulary)
    (p : Problem) : Prop where
  vocabulary : Vocabulary.ofDefinitions domain problem = .ok v
  objects : p.objects = v.objects
  predicates : p.predicates = v.predicates
  actions : domain.actions.foldlM (declareAction v) .empty = .ok p.actions
  derived : domain.derived.mapM v.derivedRule = .ok p.derived
  axioms : domain.axioms.mapM v.rule = .ok p.axioms
  initial : ∃ facts, problem.initial.mapM v.proposition = .ok facts ∧
    (Rule.close v.objects p.rules).result (.ofList facts) = .ok p.initial
  goal : v.formula [] problem.goal = .ok p.goal

theorem ofDefinitions_eq (domain : Definition.Domain) (problem : Definition.Problem) :
    ofDefinitions domain problem =
      if domain.name ≠ problem.domainName then
        resolveFault (.wrongDomain domain.name problem.domainName)
      else do
        let v ← Vocabulary.ofDefinitions domain problem
        let actions ← domain.actions.foldlM (declareAction v) .empty
        let derived ← domain.derived.mapM v.derivedRule
        let axioms ← domain.axioms.mapM v.rule
        let facts ← problem.initial.mapM v.proposition
        let initial ← (Rule.close v.objects (derived ++ axioms)).result (.ofList facts)
        let goal ← v.formula [] problem.goal
        return {
          name := problem.name, domainName := domain.name, objects := v.objects
          predicates := v.predicates, actions, derived, axioms, initial, goal
          domainDefinition := domain, problemDefinition := problem } := by
  rw [ofDefinitions]
  split
  · rfl
  · refine bind_congr fun v => bind_congr fun actions => bind_congr fun derived => ?_
    refine bind_congr fun axioms => bind_congr fun facts => ?_
    rw [Update.result]
    cases (Rule.close v.objects (derived ++ axioms)).run (.ofList facts) <;> rfl

theorem madeFrom_of_ofDefinitions (built : ofDefinitions domain problem = .ok p) :
    ∃ v, MadeFrom domain problem v p := by
  rw [ofDefinitions_eq] at built
  split at built
  · cases built
  · obtain ⟨v, vocabulary, built⟩ := bind_eq_ok.mp built
    obtain ⟨actions, hactions, built⟩ := bind_eq_ok.mp built
    obtain ⟨derived, hderived, built⟩ := bind_eq_ok.mp built
    obtain ⟨axioms, haxioms, built⟩ := bind_eq_ok.mp built
    obtain ⟨facts, hfacts, built⟩ := bind_eq_ok.mp built
    obtain ⟨initial, hinitial, built⟩ := bind_eq_ok.mp built
    obtain ⟨goal, hgoal, built⟩ := bind_eq_ok.mp built
    obtain rfl := Except.ok.inj built
    exact ⟨v, vocabulary, rfl, rfl, hactions, hderived, haxioms, ⟨facts, hfacts, hinitial⟩, hgoal⟩

theorem foldlM_declareAction {actions : List Definition.Action} {table table' : NamedTable Action}
    (declared : actions.foldlM (declareAction v) table = .ok table') :
    ∃ translated, List.Forall₂ (fun a b => Text.isName a.name = true ∧ v.action a = .ok b)
      actions translated ∧ table' = translated.foldl NamedTable.insert table := by
  induction actions generalizing table with
  | nil =>
    obtain rfl := Except.ok.inj declared
    exact ⟨[], .nil, rfl⟩
  | cons a actions ih =>
    rw [List.foldlM_cons] at declared
    obtain ⟨table₁, first, rest⟩ := bind_eq_ok.mp declared
    rw [declareAction] at first
    obtain ⟨named, first⟩ := Vocabulary.expectName_bind_eq_ok.mp first
    obtain ⟨b, translated, same⟩ := bind_eq_ok.mp first
    obtain rfl := Except.ok.inj same
    obtain ⟨bs, allTranslated, rfl⟩ := ih rest
    exact ⟨b :: bs, .cons ⟨named, translated⟩ allTranslated, rfl⟩

theorem name_of_action {a : Definition.Action} {b : Action} (translated : v.action a = .ok b) :
    b.name = a.name := by
  obtain ⟨-, f, -, es, -, rfl⟩ := Vocabulary.action_eq_ok.mp translated
  rfl

namespace MadeFrom

theorem coherent_actions (made : MadeFrom domain problem v p) : p.actions.Coherent := by
  obtain ⟨translated, -, same⟩ := foldlM_declareAction made.actions
  exact same ▸ NamedTable.coherent_empty.foldl_insert translated

/-- An action found by its name comes from the last record of that name, and it can be called. -/
theorem readable_action_of_get? (made : MadeFrom domain problem v p) {name : String} {b : Action}
    (found : p.actions.get? name = some b) :
    ∃ a, domain.actions.reverse.find? (·.name == name) = some a ∧ Text.isName a.name = true ∧
      v.action a = .ok b := by
  obtain ⟨translated, each, same⟩ := foldlM_declareAction made.actions
  rw [same, NamedTable.coherent_empty.get?_foldl_insert, NamedTable.get?_empty, Option.or_none]
    at found
  refine find?_of_forall₂ (List.rel_reverse each) (fun a b ⟨_, translated⟩ => ?_) found
  exact congrArg (· == name) (name_of_action translated).symm

theorem action_of_get? (made : MadeFrom domain problem v p) {name : String} {b : Action}
    (found : p.actions.get? name = some b) :
    ∃ a, domain.actions.reverse.find? (·.name == name) = some a ∧ v.action a = .ok b := by
  obtain ⟨a, last, -, translated⟩ := made.readable_action_of_get? found
  exact ⟨a, last, translated⟩

theorem readable_action_of_mem (made : MadeFrom domain problem v p) {b : Action}
    (hb : b ∈ p.actions.toList) :
    ∃ a ∈ domain.actions, Text.isName a.name = true ∧ v.action a = .ok b := by
  obtain ⟨a, last, named, translated⟩ :=
    made.readable_action_of_get? (made.coherent_actions.mem_toList_iff.mp hb)
  exact ⟨a, List.mem_reverse.mp (List.mem_of_find?_eq_some last), named, translated⟩

end MadeFrom

/-- A lamp is lit while a switch that is wired to it is on. -/
def lampDomain : Definition.Domain where
  name := "lamps"
  types := [⟨"switch", "object"⟩, ⟨"lamp", "object"⟩]
  predicates := [⟨"on", [⟨"?s", "switch"⟩]⟩, ⟨"wired", [⟨"?s", "switch"⟩, ⟨"?l", "lamp"⟩]⟩]
  actions := [⟨"toggle", [⟨"?s", "switch"⟩],
    .forSome [⟨"?l", "lamp"⟩] (.imply (.atom ⟨"on", [.variableNamed "?s"]⟩)
      (.atom ⟨"wired", [.variableNamed "?s", .variableNamed "?l"]⟩)),
    .and [.when (.atom ⟨"on", [.variableNamed "?s"]⟩) (.delete ⟨"on", [.variableNamed "?s"]⟩),
      .when (.not (.atom ⟨"on", [.variableNamed "?s"]⟩)) (.add ⟨"on", [.variableNamed "?s"]⟩)]⟩]
  derived := [⟨⟨"lit", [⟨"?l", "lamp"⟩]⟩, .forSome [⟨"?s", "switch"⟩]
    (.and [.atom ⟨"wired", [.variableNamed "?s", .variableNamed "?l"]⟩,
      .atom ⟨"on", [.variableNamed "?s"]⟩])⟩]

def lampProblem : Definition.Problem where
  name := "two-switches"
  domainName := "lamps"
  objects := [⟨"left", "switch"⟩, ⟨"right", "switch"⟩, ⟨"bulb", "lamp"⟩]
  initial := [⟨"wired", [.name "left", .name "bulb"]⟩]
  goal := .forAll [⟨"?l", "lamp"⟩] (.atom ⟨"lit", [.variableNamed "?l"]⟩)

end Problem
end TypedPlanning
