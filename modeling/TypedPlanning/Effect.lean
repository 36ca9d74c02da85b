import TypedPlanning.Formula

/-! Effects and the change they make to one state. All guards are read in the state before the
change, so the order of the effects does not matter. -/

namespace TypedPlanning

inductive Effect where
  | add (a : Atom)
  | delete (a : Atom)
  | when (guard : Formula) (effects : List Effect)
  | forAll (parameters : List Parameter) (effects : List Effect)
  | unsupported (feature : Feature)
deriving Repr

namespace Effect

mutual

/-- The leftmost construct that cannot be decided, a guard before what it guards. -/
def firstUnsupported : Effect → Option Feature
  | .add _ => none
  | .delete _ => none
  | .when guard effects => guard.firstUnsupported <|> firstUnsupportedIn effects
  | .forAll _ effects => firstUnsupportedIn effects
  | .unsupported feature => some feature

def firstUnsupportedIn : List Effect → Option Feature
  | [] => none
  | e :: es => e.firstUnsupported <|> firstUnsupportedIn es

end
end Effect

/-- Facts that come to hold and facts that cease to. One that is in both comes to hold. -/
structure Delta where
  add : State
  delete : State

namespace Delta

def empty : Delta := ⟨∅, ∅⟩

def isEmpty (d : Delta) : Bool := d.add.isEmpty && d.delete.isEmpty

mutual

def gather (w : World) : Effect → Delta → Evaluation Delta
  | .add a, d => return { d with add := d.add.insert (← a.ground) }
  | .delete a, d => return { d with delete := d.delete.insert (← a.ground) }
  | .when guard effects, d => do if ← guard.eval w then gatherAll w effects d else return d
  | .forAll parameters effects, d => do
    let mut d := d
    for arguments in Candidates.of w.objects parameters do
      d ← Evaluation.under parameters arguments (gatherAll w effects d)
    return d
  | .unsupported feature, _ => throw (.unsupported feature)

def gatherAll (w : World) : List Effect → Delta → Evaluation Delta
  | [], d => return d
  | e :: es, d => do gatherAll w es (← gather w e d)

end

/-- The change that the effects make. Fails on a construct that cannot be decided even where no
guard lets it be reached. -/
def ofEffects (w : World) (effects : List Effect) : Evaluation Delta :=
  match Effect.firstUnsupportedIn effects with
  | some feature => throw (.unsupported feature)
  | none => gatherAll w effects empty

def apply (d : Delta) (s : State) : State := (s \ d.delete) ∪ d.add

/-- Takes out one fact after the other, and tells whether any was there. -/
def retract : List Fact → State → Bool × State
  | [], s => (false, s)
  | p :: ps, s =>
    let (found, s') := retract ps (s.erase p)
    (s.contains p || found, s')

/-- Puts in one fact after the other, and tells whether any was missing. -/
def assert : List Fact → State → Bool × State
  | [], s => (false, s)
  | p :: ps, s =>
    let (missed, s') := assert ps (s.insert p)
    (!s.contains p || missed, s')

/-- Makes the change fact by fact, and tells whether the state is another one afterwards. -/
def update (d : Delta) (s : State) : Bool × State :=
  let (lost, kept) := retract (d.delete \ d.add).toList s
  let (gained, s') := assert d.add.toList kept
  (lost || gained, s')

end Delta
end TypedPlanning
