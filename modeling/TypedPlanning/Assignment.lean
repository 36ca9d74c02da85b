import TypedPlanning.Error
import TypedPlanning.Fact

/-! Variables bound to objects while something lifted is evaluated. The bindings form a stack, and
the nearest binding of a variable counts, so an inner quantifier may reuse an outer name. -/

namespace TypedPlanning

structure Parameter where
  variableName : String
  type : String
deriving DecidableEq, Repr

def Parameter.text (p : Parameter) : String := s!"{p.variableName} - {p.type}"

/-- Bindings, the latest first. -/
structure Assignment where
  bindings : List (String × Object)
deriving DecidableEq, Repr

namespace Assignment

def empty : Assignment := ⟨[]⟩

def get? (g : Assignment) (name : String) : Option Object := g.bindings.lookup name

def bind (g : Assignment) (name : String) (o : Object) : Assignment := ⟨(name, o) :: g.bindings⟩

/-- Binds each parameter in turn; a parameter or an argument without a partner is passed over. -/
def bindAll (g : Assignment) (parameters : List Parameter) (arguments : List Object) : Assignment :=
  (parameters.zip arguments).foldl (fun g pair => g.bind pair.1.variableName pair.2) g

def ofArguments (parameters : List Parameter) (arguments : List Object) : Assignment :=
  empty.bindAll parameters arguments

def size (g : Assignment) : Nat := g.bindings.length

def truncate (g : Assignment) (n : Nat) : Assignment := ⟨g.bindings.drop (g.size - n)⟩

@[simp] theorem get?_empty (name : String) : empty.get? name = none := rfl
@[simp] theorem size_empty : empty.size = 0 := rfl

theorem get?_bind (g : Assignment) (name x : String) (o : Object) :
    (g.bind name o).get? x = if x = name then some o else g.get? x := by
  unfold get? bind
  by_cases h : x = name
  · simp [h]
  · simp [List.lookup_cons, beq_false_of_ne h, h]

theorem bindAll_cons (g : Assignment) (p : Parameter) (parameters : List Parameter) (o : Object)
    (arguments : List Object) : g.bindAll (p :: parameters) (o :: arguments) =
      (g.bind p.variableName o).bindAll parameters arguments := rfl

@[simp] theorem bindings_bindAll (g : Assignment) (parameters : List Parameter)
    (arguments : List Object) : (g.bindAll parameters arguments).bindings =
      ((parameters.zip arguments).map fun pair => (pair.1.variableName, pair.2)).reverse ++
        g.bindings := by
  unfold bindAll
  generalize parameters.zip arguments = pairs
  induction pairs generalizing g with
  | nil => rfl
  | cons pair pairs ih => rw [List.foldl_cons, ih]; simp [bind]

theorem truncate_bindAll (g : Assignment) (parameters : List Parameter) (arguments : List Object) :
    (g.bindAll parameters arguments).truncate g.size = g := by
  simp [truncate, size]

end Assignment

/-- Evaluation under bindings. Where it fails, the bindings of that moment remain. -/
abbrev Evaluation := EStateM Error Assignment

namespace Evaluation
variable {α : Type}

def outcome (x : Evaluation α) (g : Assignment) : Except Error α :=
  match x.run g with
  | .ok a _ => .ok a
  | .error e _ => .error e

/-- Evaluates with more bindings and takes them away afterwards, also after a failure. -/
def under (parameters : List Parameter) (arguments : List Object) (x : Evaluation α) :
    Evaluation α := fun g =>
  match x.run (g.bindAll parameters arguments) with
  | .ok a g' => .ok a (g'.truncate g.size)
  | .error e g' => .error e (g'.truncate g.size)

end Evaluation
end TypedPlanning
