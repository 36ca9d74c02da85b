import TypedPlanning.Candidates
import TypedPlanning.State

/-! First-order formulas over a state. Quantifiers range over the indexed objects of their types. A
construct that cannot be decided stays in the formula and fails every evaluation of it. -/

namespace TypedPlanning

inductive Term where
  | object (o : Object)
  | variableNamed (name : String)
deriving DecidableEq, Repr

def Term.ground : Term → Evaluation Object
  | .object o => pure o
  | .variableNamed name => do
    match (← get).get? name with
    | some o => pure o
    | none => throw (.unboundVariable name)

structure Atom where
  predicate : String
  terms : List Term
deriving DecidableEq, Repr

def Atom.ground (a : Atom) : Evaluation Fact :=
  return ⟨a.predicate, ← a.terms.mapM Term.ground⟩

inductive Formula where
  | atom (a : Atom)
  | equal (left right : Term)
  | not (f : Formula)
  | and (fs : List Formula)
  | or (fs : List Formula)
  | forAll (parameters : List Parameter) (f : Formula)
  | forSome (parameters : List Parameter) (f : Formula)
  | unsupported (feature : Feature)
deriving Repr

/-- What formulas are about: the facts that hold, and the objects there are. -/
structure World where
  objects : ObjectTable
  state : State

namespace Formula

def truth : Formula := .and []

def imply (antecedent consequent : Formula) : Formula := .or [.not antecedent, consequent]

mutual

def firstUnsupported : Formula → Option Feature
  | .atom _ => none
  | .equal _ _ => none
  | .not f => f.firstUnsupported
  | .and fs => firstUnsupportedIn fs
  | .or fs => firstUnsupportedIn fs
  | .forAll _ f => f.firstUnsupported
  | .forSome _ f => f.firstUnsupported
  | .unsupported feature => some feature

def firstUnsupportedIn : List Formula → Option Feature
  | [] => none
  | f :: fs => f.firstUnsupported <|> firstUnsupportedIn fs

end

mutual

/-- Truth under the current bindings, from left to right and no further than the answer needs. -/
def holds (w : World) : Formula → Evaluation Bool
  | .atom a => return w.state.contains (← a.ground)
  | .equal left right => return (← left.ground) == (← right.ground)
  | .not f => return !(← f.holds w)
  | .and fs => allHold w fs
  | .or fs => anyHolds w fs
  | .forAll parameters f => do
    for arguments in Candidates.of w.objects parameters do
      unless ← Evaluation.under parameters arguments (f.holds w) do return false
    return true
  | .forSome parameters f => do
    for arguments in Candidates.of w.objects parameters do
      if ← Evaluation.under parameters arguments (f.holds w) then return true
    return false
  | .unsupported feature => throw (.unsupported feature)

def allHold (w : World) : List Formula → Evaluation Bool
  | [] => return true
  | f :: fs => do if ← f.holds w then allHold w fs else return false

def anyHolds (w : World) : List Formula → Evaluation Bool
  | [] => return false
  | f :: fs => do if ← f.holds w then return true else anyHolds w fs

end

/-- Fails on a construct that cannot be decided even where the truth does not depend on it. -/
def eval (w : World) (f : Formula) : Evaluation Bool :=
  match f.firstUnsupported with
  | some feature => throw (.unsupported feature)
  | none => f.holds w

end Formula
end TypedPlanning
