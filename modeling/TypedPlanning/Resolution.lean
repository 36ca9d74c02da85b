import TypedPlanning.Action
import TypedPlanning.Definition.Problem
import TypedPlanning.Text.Call

/-! Putting written goals, effects and rules in terms of declared types, objects and predicates.
What comes out mentions only indexed objects, declared predicates and variables in scope, and every
atom that is written has the declared number of arguments. Nested conjunctions of effects are
flattened on the way. -/

namespace TypedPlanning

/-- The objects and predicates that written names refer to. -/
structure Vocabulary where
  objects : ObjectTable
  predicates : NamedTable Signature

def resolveFault {α : Type} (fault : DefinitionFault) : Except Error α :=
  .error (.definition fault)

namespace Vocabulary

def type (v : Vocabulary) (name : String) : Except Error String :=
  match v.objects.types.get? name with
  | some t => .ok t
  | none => resolveFault (.unknownType name)

def parameters (v : Vocabulary) (ds : List Definition.TypedName) : Except Error (List Parameter) :=
  ds.mapM fun d => return ⟨d.name, ← v.type d.type⟩

def object (v : Vocabulary) (name : String) : Except Error Object :=
  match v.objects.get? name with
  | some o => .ok o
  | none => resolveFault (.unknownObject name)

def term (v : Vocabulary) (scope : List String) : Definition.Term → Except Error Term
  | .name n => return .object (← v.object n)
  | .variableNamed x =>
    if x ∈ scope then .ok (.variableNamed x) else resolveFault (.unknownVariable x)

def expectArity (v : Vocabulary) (predicate : String) (found : Nat) : Except Error Unit :=
  match v.predicates.get? predicate with
  | none => resolveFault (.unknownPredicate predicate)
  | some signature =>
    if signature.arity = found then .ok ()
    else resolveFault (.arityMismatch predicate signature.arity found)

def atom (v : Vocabulary) (scope : List String) (a : Definition.Atom) : Except Error Atom := do
  v.expectArity a.predicate a.terms.length
  return ⟨a.predicate, ← a.terms.mapM (v.term scope)⟩

/-- A fact, in which variables are out of place. -/
def proposition (v : Vocabulary) (a : Definition.Atom) : Except Error Fact := do
  v.expectArity a.predicate a.terms.length
  return ⟨a.predicate, ← a.terms.mapM fun
    | .name n => v.object n
    | .variableNamed x => resolveFault (.unexpected "object" x)⟩

def within (parameters : List Parameter) (scope : List String) : List String :=
  parameters.map Parameter.variableName ++ scope

mutual

def formula (v : Vocabulary) : List String → Definition.Goal → Except Error Formula
  | scope, .atom a => return .atom (← v.atom scope a)
  | scope, .equal left right => return .equal (← v.term scope left) (← v.term scope right)
  | scope, .not g => return .not (← v.formula scope g)
  | scope, .and gs => return .and (← v.formulas scope gs)
  | scope, .or gs => return .or (← v.formulas scope gs)
  | scope, .imply a b => return .imply (← v.formula scope a) (← v.formula scope b)
  | scope, .forAll vs g => do
    let parameters ← v.parameters vs
    return .forAll parameters (← v.formula (within parameters scope) g)
  | scope, .forSome vs g => do
    let parameters ← v.parameters vs
    return .forSome parameters (← v.formula (within parameters scope) g)
  | _, .unsupported feature => return .unsupported feature

def formulas (v : Vocabulary) : List String → List Definition.Goal → Except Error (List Formula)
  | _, [] => return []
  | scope, g :: gs => return (← v.formula scope g) :: (← v.formulas scope gs)

end

mutual

def effects (v : Vocabulary) : List String → Definition.Effect → Except Error (List Effect)
  | scope, .add a => return [.add (← v.atom scope a)]
  | scope, .delete a => return [.delete (← v.atom scope a)]
  | scope, .and es => v.effectsOfAll scope es
  | scope, .when guard e => return [.when (← v.formula scope guard) (← v.effects scope e)]
  | scope, .forAll vs e => do
    let parameters ← v.parameters vs
    return [.forAll parameters (← v.effects (within parameters scope) e)]
  | _, .unsupported feature => return [.unsupported feature]

def effectsOfAll (v : Vocabulary) :
    List String → List Definition.Effect → Except Error (List Effect)
  | _, [] => return []
  | scope, e :: es => return (← v.effects scope e) ++ (← v.effectsOfAll scope es)

end

def action (v : Vocabulary) (a : Definition.Action) : Except Error Action := do
  let parameters ← v.parameters a.parameters
  let scope := within parameters []
  return ⟨a.name, parameters, ← v.formula scope a.precondition, ← v.effects scope a.effect⟩

/-- The rule of a derived predicate: its own parameters are the arguments of the head. -/
def derivedRule (v : Vocabulary) (d : Definition.Derived) : Except Error Rule := do
  let parameters ← v.parameters d.head.parameters
  let head : Atom := ⟨d.head.name, parameters.map (.variableNamed ·.variableName)⟩
  return ⟨parameters, ← v.formula (within parameters []) d.body, head⟩

def ruleHead (v : Vocabulary) (scope : List String) : Definition.Goal → Except Error Atom
  | .atom a => v.atom scope a
  | .not (.atom a) => resolveFault (.negatedAxiomHead a.predicate)
  | .not _ => resolveFault (.negatedAxiomHead "not")
  | _ => resolveFault (.unexpected "atom as axiom head" "compound formula")

def rule (v : Vocabulary) (a : Definition.Axiom) : Except Error Rule := do
  let parameters ← v.parameters a.binders
  let scope := within parameters []
  return ⟨parameters, ← v.formula scope a.context, ← v.ruleHead scope a.implies⟩

/-- Declared names must be such that calls and facts can mention them. -/
def expectName (name : String) : Except Error Unit :=
  if Text.isName name then .ok () else resolveFault (.invalidName name)

def declaredObject (types : TypeHierarchy) (d : Definition.TypedName) : Except Error Object := do
  expectName d.name
  match types.get? d.type with
  | some t => return ⟨d.name, t⟩
  | none => resolveFault (.unknownType d.type)

def signature (v : Vocabulary) (p : Definition.Predicate) : Except Error Signature :=
  return ⟨p.name, ← p.parameters.mapM fun d => v.type d.type⟩

/-- Of two declarations of a predicate the later counts. -/
def declarePredicate (v : Vocabulary) (p : Definition.Predicate) : Except Error Vocabulary := do
  expectName p.name
  return { v with predicates := v.predicates.insert (← v.signature p) }

/-- A derived predicate need not be declared, and an undeclared one is declared by its rule. -/
def declareDerived (v : Vocabulary) (d : Definition.Derived) : Except Error Vocabulary := do
  expectName d.head.name
  if v.predicates.contains d.head.name then return v
  else return { v with predicates := v.predicates.insert (← v.signature d.head) }

/-- Constants come before the objects of the problem. -/
def ofDefinitions (domain : Definition.Domain) (problem : Definition.Problem) :
    Except Error Vocabulary := do
  let types ← (Definition.typeHierarchy domain.types).mapError .definition
  let objects ← (domain.constants ++ problem.objects).mapM (declaredObject types)
  let v : Vocabulary := ⟨.ofList types objects, .empty⟩
  domain.derived.foldlM declareDerived (← domain.predicates.foldlM declarePredicate v)

end Vocabulary
end TypedPlanning
