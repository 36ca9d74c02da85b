import TypedPlanning.Effect

/-! Rules that derive facts, and the closing of a state under them. A rule only ever adds instances
of its head. The rules are swept in order, each seeing what those before it have derived, until a
whole sweep derives nothing new. -/

namespace TypedPlanning

/-- A change to a state. Where it fails, the state of that moment remains. -/
abbrev Update := EStateM Error State

/-- Derives the head under every binding of the parameters for which the body holds. -/
structure Rule where
  parameters : List Parameter
  body : Formula
  head : Atom
deriving Repr

namespace Rule

def name (r : Rule) : String := r.head.predicate

def effects (r : Rule) : List Effect := [.forAll r.parameters [.when r.body [.add r.head]]]

/-- Derives all instances at once, and tells whether one is new. -/
def fire (objects : ObjectTable) (r : Rule) : Update Bool := do
  let d ← ofExcept (Evaluation.outcome (Delta.ofEffects ⟨objects, ← get⟩ r.effects) .empty)
  modifyGet d.update

def sweep (objects : ObjectTable) : List Rule → Update Bool
  | [] => return false
  | r :: rs => do
    let new ← r.fire objects
    return (← sweep objects rs) || new

/-- At most `n` sweeps, the last being the first that derives nothing new. -/
def sweeps (objects : ObjectTable) (rules : List Rule) : Nat → Update Bool
  | 0 => return false
  | n + 1 => do
    if ← sweep objects rules then
      let _ ← sweeps objects rules n
      return true
    else return false

/-- How many instances of their heads the rules have at most. -/
def instances (objects : ObjectTable) (rules : List Rule) : Nat :=
  rules.foldr (fun r n => (Candidates.of objects r.parameters).count + n) 0

/-- Sweeps until nothing new is derived. Each sweep but the last adds an instance of a head, so one
sweep more than there are instances is enough. -/
def close (objects : ObjectTable) (rules : List Rule) : Update Bool :=
  sweeps objects rules (instances objects rules + 1)

end Rule
end TypedPlanning
