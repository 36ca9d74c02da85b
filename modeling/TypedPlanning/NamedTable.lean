import Std.Data.TreeMap

/-! Items found by name that keep the order in which their names first came. Inserting a name again
puts the new item in the place of the old one. -/

namespace TypedPlanning

class Named (α : Type) where
  name : α → String

structure NamedTable (α : Type) where
  items : Array α
  /-- Where the item of each name stands. -/
  positions : Std.TreeMap String Nat

namespace NamedTable
variable {α : Type} [Named α]

def empty : NamedTable α := ⟨#[], ∅⟩

def get? (table : NamedTable α) (name : String) : Option α :=
  table.positions[name]?.bind (table.items[·]?)

def contains (table : NamedTable α) (name : String) : Bool := (table.get? name).isSome

/-- The item that gives way, if there is one, and the table afterwards. -/
def getThenInsert? (table : NamedTable α) (item : α) : Option α × NamedTable α :=
  match table.positions[Named.name item]? with
  | some i => (table.items[i]?, { table with items := table.items.setIfInBounds i item })
  | none =>
    (none, ⟨table.items.push item, table.positions.insert (Named.name item) table.items.size⟩)

def insert (table : NamedTable α) (item : α) : NamedTable α := (table.getThenInsert? item).2

def ofList (items : List α) : NamedTable α := items.foldl insert empty

def toList (table : NamedTable α) : List α := table.items.toList

def size (table : NamedTable α) : Nat := table.items.size

def isEmpty (table : NamedTable α) : Bool := table.items.isEmpty

end NamedTable
end TypedPlanning
