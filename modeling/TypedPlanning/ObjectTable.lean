import TypedPlanning.TypeHierarchy
import Std.Data.TreeMap

/-! The typed objects of a problem, found by name and by type. An object is listed under its own
type and under every super type of it, so looking a type up walks no chain. -/

namespace TypedPlanning

structure Object where
  name : String
  type : String
deriving DecidableEq, Repr

structure ObjectTable where
  types : TypeHierarchy
  /-- In order of declaration, one object to a name. -/
  objects : List Object
  byName : Std.TreeMap String Object
  /-- Under each type the objects that satisfy it, in order of declaration. -/
  listings : Std.TreeMap String (List Object)

namespace ObjectTable

/-- Declared types are listed from the start. -/
def empty (types : TypeHierarchy) : ObjectTable :=
  ⟨types, [], ∅, types.types.foldl (fun listings type => listings.insert type []) ∅⟩

def get? (t : ObjectTable) (name : String) : Option Object := t.byName[name]?

def lookup (t : ObjectTable) (type : String) : List Object := t.listings.getD type []

/-- One listing grows at its end. -/
def list (o : Object) (listings : Std.TreeMap String (List Object)) (type : String) :
    Std.TreeMap String (List Object) :=
  listings.insert type (listings.getD type [] ++ [o])

/-- A second object of a name is left out. -/
def insert (t : ObjectTable) (o : Object) : ObjectTable :=
  match t.get? o.name with
  | some _ => t
  | none => ⟨t.types, t.objects ++ [o], t.byName.insert o.name o,
    (t.types.ancestors o.type).foldl (list o) t.listings⟩

def ofList (types : TypeHierarchy) (objects : List Object) : ObjectTable :=
  objects.foldl insert (empty types)

def satisfies (t : ObjectTable) (o : Object) (type : String) : Bool :=
  t.types.isSubtype o.type type

@[simp] theorem types_insert (t : ObjectTable) (o : Object) : (t.insert o).types = t.types := by
  unfold insert; split <;> rfl

@[simp] theorem types_ofList (types : TypeHierarchy) (objects : List Object) :
    (ofList types objects).types = types := by
  suffices h : ∀ t : ObjectTable, (objects.foldl insert t).types = t.types from h _
  induction objects with
  | nil => intro t; rfl
  | cons o os ih => intro t; simp [ih]

end ObjectTable
end TypedPlanning
