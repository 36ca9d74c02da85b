import TypedPlanning.Rule

/-! Actions with typed parameters: when they may be taken, and what they change. -/

namespace TypedPlanning

structure Action where
  name : String
  parameters : List Parameter
  precondition : Formula
  effects : List Effect
deriving Repr

instance : Named Action := ⟨Action.name⟩

namespace Action

def arity (a : Action) : Nat := a.parameters.length

/-- Binds the parameters to as many arguments, each of the right type. -/
def assign (a : Action) (objects : ObjectTable) (arguments : List Object) :
    Except Error Assignment :=
  if arguments.length ≠ a.arity then
    .error (.call (.arityMismatch a.name a.arity arguments.length))
  else
    match (a.parameters.zip arguments).find? fun pair => !objects.satisfies pair.2 pair.1.type with
    | some (p, o) => .error (.argumentType p.variableName p.type o.name o.type)
    | none => .ok (.ofArguments a.parameters arguments)

def isApplicable (a : Action) (objects : ObjectTable) (s : State) (arguments : List Object) :
    Except Error Bool := do
  Evaluation.outcome (a.precondition.eval ⟨objects, s⟩) (← a.assign objects arguments)

/-- What the effects change. The precondition is not asked for. -/
def delta (a : Action) (objects : ObjectTable) (s : State) (arguments : List Object) :
    Except Error Delta := do
  Evaluation.outcome (Delta.ofEffects ⟨objects, s⟩ a.effects) (← a.assign objects arguments)

def apply (a : Action) (objects : ObjectTable) (s : State) (arguments : List Object) :
    Except Error State :=
  return (← a.delta objects s arguments).apply s

/-- Changes the current state, and tells whether it is another one afterwards. A failure leaves it
as it was. -/
def update (a : Action) (objects : ObjectTable) (arguments : List Object) : Update Bool := do
  let d ← ofExcept (a.delta objects (← get) arguments)
  modifyGet d.update

end Action

structure GroundAction where
  action : String
  arguments : List Object
deriving DecidableEq, Repr

def GroundAction.text (a : GroundAction) : String := spaced a.action (a.arguments.map Object.name)

end TypedPlanning
