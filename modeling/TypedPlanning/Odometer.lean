/-! Stepping through the ways to take one value from each of several lists, the leftmost list
slowest. A wheel shows one value of its list; when it has shown the last it starts over, and the
wheel to its left moves on. -/

namespace TypedPlanning

structure Wheel (α : Type) where
  first : α
  rest : List α
  current : α
  later : List α
deriving DecidableEq, Repr

namespace Wheel
variable {α : Type}

def ofList? : List α → Option (Wheel α)
  | [] => none
  | a :: as => some ⟨a, as, a, as⟩

def reset (w : Wheel α) : Wheel α := { w with current := w.first, later := w.rest }

def turn? (w : Wheel α) : Option (Wheel α) :=
  match w.later with
  | [] => none
  | a :: as => some { w with current := a, later := as }

end Wheel

abbrev Odometer (α : Type) := List (Wheel α)

namespace Odometer
variable {α : Type}

/-- Every wheel at its first value. There is no start if a list is empty. -/
def start? (lists : List (List α)) : Option (Odometer α) := lists.mapM Wheel.ofList?

def reading (o : Odometer α) : List α := o.map Wheel.current

/-- The rightmost wheel that can turn does, and those to its right start over. -/
def advance? : Odometer α → Option (Odometer α)
  | [] => none
  | w :: ws =>
    match advance? ws with
    | some ws' => some (w :: ws')
    | none => w.turn?.map (· :: ws.map Wheel.reset)

end Odometer
end TypedPlanning
