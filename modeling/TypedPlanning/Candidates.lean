import TypedPlanning.Assignment
import TypedPlanning.Odometer

/-! The argument tuples that a list of typed parameters admits, in the order in which the objects
were declared, the leftmost parameter slowest. No tuple is built before it is asked for. -/

namespace TypedPlanning

structure Candidates where
  domains : List (List Object)
deriving DecidableEq, Repr

/-- A place between two tuples; at the end, and always for an empty domain, none is left. -/
abbrev Cursor := Option (Odometer Object)

namespace Cursor

def next? : Cursor → Option (List Object) × Cursor
  | none => (none, none)
  | some o => (some o.reading, o.advance?)

def take : Nat → Cursor → List (List Object)
  | 0, _ => []
  | n + 1, c =>
    match c.next? with
    | (none, _) => []
    | (some tuple, c') => tuple :: take n c'

/-- Visits up to `n` tuples from here on, until a step is the last. -/
@[specialize] def visit {m : Type → Type} {β : Type} [Monad m]
    (step : List Object → β → m (ForInStep β)) : Nat → Cursor → β → m β
  | 0, _, b => pure b
  | n + 1, c, b =>
    match c.next? with
    | (none, _) => pure b
    | (some tuple, c') => do
      match ← step tuple b with
      | .done b => pure b
      | .yield b => visit step n c' b

end Cursor

namespace Candidates

def of (objects : ObjectTable) (parameters : List Parameter) : Candidates :=
  ⟨parameters.map fun p => objects.lookup p.type⟩

def isEmpty (c : Candidates) : Bool := c.domains.any List.isEmpty

def count (c : Candidates) : Nat := c.domains.foldr (fun d n => d.length * n) 1

/-- The largest size that is told apart from larger ones. -/
def sizeLimit : Nat := UInt64.size - 1

/-- The number of tuples, held at the limit as soon as a partial product passes it. -/
def size (c : Candidates) : Nat :=
  if c.isEmpty then 0 else c.domains.foldl (fun n d => min (n * d.length) sizeLimit) 1

def cursor (c : Candidates) : Cursor := Odometer.start? c.domains

def take (c : Candidates) (n : Nat) : List (List Object) := c.cursor.take n

instance {m : Type → Type} [Monad m] : ForIn m Candidates (List Object) where
  forIn c b step := c.cursor.visit step c.count b

end Candidates
end TypedPlanning
