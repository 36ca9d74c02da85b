import TypedPlanning.TypeHierarchy
import TypedPlanning.Text.Expression

/-! Names with types, as in `a b - t c`: how they are written, and the type hierarchy that a list of
them declares. A dash gives the names before it the type behind it. Names without a dash are of the
root type. -/

namespace TypedPlanning

def unexpected {α : Type} (expected : String) (found : Text.Expression) : Except Error α :=
  .error (.definition (.unexpected expected found.text))

def expectWord (what : String) : Text.Expression → Except Error String
  | .word w => .ok w
  | .list es => unexpected what (.list es)

def expectList (what : String) : Text.Expression → Except Error (List Text.Expression)
  | .word w => unexpected what (.word w)
  | .list es => .ok es

namespace Definition

structure TypedName where
  name : String
  type : String
deriving DecidableEq, Repr

namespace TypedName

/-- The names that wait for a type come first. -/
def readAfter : List String → List Text.Expression → Except Error (List TypedName)
  | waiting, [] => .ok (waiting.map (⟨·, rootType⟩))
  | waiting, .word w :: es =>
    if w = "-" then
      match es with
      | .word type :: es =>
        if waiting.isEmpty then .error (.definition (.missing s!"names before `- {type}`"))
        else do return waiting.map (⟨·, type⟩) ++ (← readAfter [] es)
      | .list types :: _ =>
        if types.head?.any (·.isKeyword "either") then .error (.unsupported .eitherTypes)
        else unexpected "type name" (.list types)
      | [] => .error (.definition (.missing "type after `-`"))
    else readAfter (waiting ++ [w]) es
  | _, .list items :: _ => unexpected "name" (.list items)

def readAll (es : List Text.Expression) : Except Error (List TypedName) := readAfter [] es

end TypedName

/-- Declares a name and its super type. The root type has no super type, whatever is written. -/
def declareType (h : TypeHierarchy) (d : TypedName) : Except DefinitionFault TypeHierarchy :=
  let h := (h.declare d.name).declare d.type
  if d.name = rootType then .ok h
  else
    match h.inherit d.name d.type with
    | .ok h => .ok h
    | .error (.alreadyHasSuperType _) => .error (.alreadyHasSuperType d.name)
    | .error .circular => .error (.circularInheritance d.name)

/-- The hierarchy of the declared types. Super types need no declaration of their own. -/
def typeHierarchy (ds : List TypedName) : Except DefinitionFault TypeHierarchy :=
  ds.foldlM declareType .initial

end Definition
end TypedPlanning
