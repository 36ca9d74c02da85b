import TypedPlanning.Resolution
import TypedPlanning.Definition.Typecheck
import TypedPlanning.Text.Plan

/-! A planning problem, made once from its definitions and then asked: which facts hold at first,
which actions may be taken, where they lead, and whether a plan reaches the goal. States are values
that go in and out. Every state that comes out is closed under the rules. -/

namespace TypedPlanning

structure Problem where
  name : String
  domainName : String
  objects : ObjectTable
  predicates : NamedTable Signature
  actions : NamedTable Action
  /-- Rules of derived predicates. They go before the axioms. -/
  derived : List Rule
  axioms : List Rule
  /-- Closed under all rules. -/
  initial : State
  goal : Formula
  domainDefinition : Definition.Domain
  problemDefinition : Definition.Problem

namespace Problem

def declareAction (v : Vocabulary) (actions : NamedTable Action) (a : Definition.Action) :
    Except Error (NamedTable Action) := do
  Vocabulary.expectName a.name
  return actions.insert (← v.action a)

def ofDefinitions (domain : Definition.Domain) (problem : Definition.Problem) :
    Except Error Problem := do
  if domain.name ≠ problem.domainName then
    resolveFault (.wrongDomain domain.name problem.domainName)
  let v ← Vocabulary.ofDefinitions domain problem
  let actions ← domain.actions.foldlM (declareAction v) .empty
  let derived ← domain.derived.mapM v.derivedRule
  let axioms ← domain.axioms.mapM v.rule
  let facts ← problem.initial.mapM v.proposition
  let initial ←
    match (Rule.close v.objects (derived ++ axioms)).run (Std.ExtTreeSet.ofList facts) with
    | .ok _ s => pure s
    | .error e _ => throw e
  let goal ← v.formula [] problem.goal
  return {
    name := problem.name, domainName := domain.name, objects := v.objects
    predicates := v.predicates, actions, derived, axioms, initial, goal
    domainDefinition := domain, problemDefinition := problem }

def ofTexts (domain problem : String) : Except Error Problem := do
  ofDefinitions (← Definition.Domain.read domain) (← Definition.Problem.read problem)

def validate (p : Problem) (verbose : Bool) : Report :=
  Definition.typecheck verbose p.domainDefinition p.problemDefinition

def rules (p : Problem) : List Rule := p.derived ++ p.axioms

def object (p : Problem) (name : String) : Except Error Object :=
  match p.objects.get? name with
  | some o => .ok o
  | none => .error (.call (.unknownObject name))

def arguments (p : Problem) (call : Text.Call) (arity : Nat) : Except Error (List Object) :=
  if arity = call.arguments.length then call.arguments.mapM p.object
  else .error (.call (.arityMismatch call.name arity call.arguments.length))

/-- The action of a call with its arguments, whose types are left unchecked. -/
def interpret (p : Problem) (call : Text.Call) : Except Error (Action × List Object) :=
  match p.actions.get? call.name with
  | none => .error (.call (.unknownAction call.name))
  | some a => return (a, ← p.arguments call a.arity)

def readCall (p : Problem) (text : String) : Except Error (Action × List Object) := do
  p.interpret (← Text.Call.read text)

def readFact (p : Problem) (text : String) : Except Error Fact := do
  let call ← Text.Call.read text
  match p.predicates.get? call.name with
  | none => throw (.call (.unknownPredicate call.name))
  | some signature => return ⟨call.name, ← p.arguments call signature.arity⟩

def readState (p : Problem) (texts : List String) : Except Error State :=
  return .ofList (← texts.mapM p.readFact)

/-- Facts are read in the order of their texts. -/
def readTexts (p : Problem) (s : TextState) : Except Error State := p.readState s.toList

/-- Closes the current state under all rules, and tells whether it is another one afterwards. -/
def close (p : Problem) : Update Bool := Rule.close p.objects p.rules

def closed (p : Problem) (s : State) : Except Error State :=
  match p.close.run s with
  | .ok _ s' => .ok s'
  | .error e _ => .error e

/-- The closed state after an action. Its precondition is not asked for. -/
def apply (p : Problem) (s : State) (a : Action) (arguments : List Object) :
    Except Error State := do
  p.closed (← a.apply p.objects s arguments)

/-- Takes an action in the current state and closes what comes out. Tells whether one or the other
has changed the state; where a rule fails, what has been done until then remains. -/
def update (p : Problem) (a : Action) (arguments : List Object) : Update Bool := do
  let changed ← a.update p.objects arguments
  return (← p.close) || changed

/-- The state after a call, whether or not the call is applicable. -/
def next (p : Problem) (s : State) (call : String) : Except Error State := do
  let (a, arguments) ← p.readCall call
  p.apply s a arguments

def isApplicable (p : Problem) (s : State) (call : String) : Except Error Bool := do
  let (a, arguments) ← p.readCall call
  a.isApplicable p.objects s arguments

/-- The call is applicable and leads to exactly the other state. -/
def isTransition (p : Problem) (s : State) (call : String) (s' : State) : Except Error Bool := do
  let (a, arguments) ← p.readCall call
  if ← a.isApplicable p.objects s arguments then return (← p.apply s a arguments) == s'
  else return false

def isGoal (p : Problem) (s : State) : Except Error Bool :=
  Evaluation.outcome (p.goal.eval ⟨p.objects, s⟩) .empty

/-- Every call is applicable in its turn, and the state after the last satisfies the goal. No call
is looked at before those in front of it have been taken. -/
def run (p : Problem) : State → List (Except Error Text.Call) → Except Error Bool
  | s, [] => p.isGoal s
  | s, call :: calls => do
    let (a, arguments) ← p.interpret (← call)
    if ← a.isApplicable p.objects s arguments then
      match (p.update a arguments).run s with
      | .ok _ s' => p.run s' calls
      | .error e _ => throw e
    else return false

def isPlan (p : Problem) (calls : List String) : Except Error Bool :=
  p.run p.initial (calls.map Text.Call.read)

def isPlanText (p : Problem) (plan : String) : Except Error Bool := do
  p.run p.initial ((← Text.Call.readPlan plan).map .ok)

def applicableArguments (p : Problem) (s : State) (a : Action) :
    Except Error (List (List Object)) := do
  let mut valid := #[]
  for arguments in Candidates.of p.objects a.parameters do
    if ← a.isApplicable p.objects s arguments then valid := valid.push arguments
  return valid.toList

def applicableActions (p : Problem) (s : State) : Except Error (List GroundAction) := do
  let groups ← p.actions.toList.mapM fun a =>
    return (← p.applicableArguments s a).map (GroundAction.mk a.name)
  return groups.flatten

def nextOnTexts (p : Problem) (s : TextState) (call : String) : Except Error TextState := do
  return (← p.next (← p.readTexts s) call).texts

def isApplicableOnTexts (p : Problem) (s : TextState) (call : String) : Except Error Bool := do
  p.isApplicable (← p.readTexts s) call

/-- Both states are read before the call. -/
def isTransitionOnTexts (p : Problem) (s : TextState) (call : String) (s' : TextState) :
    Except Error Bool := do
  p.isTransition (← p.readTexts s) call (← p.readTexts s')

def isGoalOnTexts (p : Problem) (s : TextState) : Except Error Bool := do
  p.isGoal (← p.readTexts s)

/-- The action is looked up before the state is read. -/
def applicableArgumentsOnTexts (p : Problem) (s : TextState) (action : String) :
    Except Error (List (List String)) :=
  match p.actions.get? action with
  | none => .error (.call (.unknownAction action))
  | some a => do
    return (← p.applicableArguments (← p.readTexts s) a).map (·.map Object.name)

def applicableActionsOnTexts (p : Problem) (s : TextState) : Except Error (List String) := do
  return (← p.applicableActions (← p.readTexts s)).map GroundAction.text

end Problem
end TypedPlanning
