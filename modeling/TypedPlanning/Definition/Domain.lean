import TypedPlanning.Definition.Effect

/-! Domains as they are written: types, constants, predicates, and what changes and derives facts
over them. -/

namespace TypedPlanning
namespace Definition

structure Predicate where
  name : String
  parameters : List TypedName
deriving DecidableEq, Repr

structure Action where
  name : String
  parameters : List TypedName
  precondition : Goal
  effect : Effect
deriving Repr

/-- Whenever the context holds, so does what it implies. -/
structure Axiom where
  binders : List TypedName
  context : Goal
  implies : Goal
deriving Repr

/-- The head is derived for all arguments of which the body holds. -/
structure Derived where
  head : Predicate
  body : Goal
deriving Repr

structure Domain where
  name : String
  requirements : List String := []
  types : List TypedName := []
  constants : List TypedName := []
  predicates : List Predicate := []
  actions : List Action := []
  axioms : List Axiom := []
  derived : List Derived := []
deriving Repr

open Text (Expression lower)

def Predicate.read (e : Expression) : Except Error Predicate := do
  match ← expectList "predicate declaration" e with
  | [] => unexpected "predicate declaration" e
  | head :: parameters =>
    return ⟨← expectWord "predicate name" head, ← TypedName.readAll parameters⟩

def readFields (whole : Expression) :
    List Expression → Except Error (List (Expression × Expression))
  | [] => .ok []
  | [_] => unexpected "keyword followed by a value" whole
  | key :: value :: rest => return (key, value) :: (← readFields whole rest)

namespace Action

/-- A keyword given again counts anew. -/
def setField (a : Action) (field : Expression × Expression) : Except Error Action := do
  let (key, value) := field
  if key.isKeyword ":parameters" then
    return { a with parameters := ← TypedName.readAll (← expectList "parameter list" value) }
  else if key.isKeyword ":precondition" then return { a with precondition := ← Goal.read value }
  else if key.isKeyword ":effect" then return { a with effect := ← Effect.read value }
  else unexpected "action keyword" key

def read (whole : Expression) : List Expression → Except Error Action
  | [] => .error (.definition (.missing "action name"))
  | name :: fields => do
    let name ← expectWord "action name" name
    (← readFields whole fields).foldlM setField ⟨name, [], .truth, .nothing⟩

end Action

namespace Axiom

/-- What has been read of an axiom: all but the implied goal has a default. -/
structure Draft where
  binders : List TypedName := []
  context : Goal := .truth
  implies : Option Goal := none

def Draft.setField (a : Draft) (field : Expression × Expression) : Except Error Draft := do
  let (key, value) := field
  if key.isKeyword ":vars" then
    return { a with binders := ← TypedName.readAll (← expectList "variable list" value) }
  else if key.isKeyword ":context" then return { a with context := ← Goal.read value }
  else if key.isKeyword ":implies" then return { a with implies := some (← Goal.read value) }
  else unexpected "axiom keyword" key

def read (whole : Expression) (fields : List Expression) : Except Error Axiom := do
  let a ← (← readFields whole fields).foldlM Draft.setField {}
  match a.implies with
  | some implies => return ⟨a.binders, a.context, implies⟩
  | none => throw (.definition (.missing "`:implies` of axiom"))

end Axiom

def Derived.read (whole : Expression) : List Expression → Except Error Derived
  | [head, body] => return ⟨← Predicate.read head, ← Goal.read body⟩
  | _ => unexpected "`(:derived (head) body)`" whole

def readHeader (kind : String) (root : Expression) : Except Error (String × List Expression) := do
  let expected := s!"`(define ({kind} <name>) ...)`"
  match ← expectList expected root with
  | define :: declaration :: sections =>
    if !define.isKeyword "define" then unexpected expected define
    else
      match ← expectList expected declaration with
      | [k, name] =>
        if k.isKeyword kind then return (← expectWord "name" name, sections)
        else unexpected expected declaration
      | _ => unexpected expected declaration
  | _ => unexpected expected root

def readSection (what : String) (e : Expression) : Except Error (String × List Expression) := do
  match ← expectList what e with
  | [] => unexpected what e
  | key :: items => return (lower (← expectWord what key), items)

namespace Domain

/-- Sections may come in any order and repeatedly. Functions are passed over. -/
def addSection (d : Domain) (e : Expression) : Except Error Domain := do
  let (key, items) ← readSection "domain section" e
  match key with
  | ":requirements" =>
    return { d with requirements := d.requirements ++ (← items.mapM (expectWord "requirement")) }
  | ":types" => return { d with types := d.types ++ (← TypedName.readAll items) }
  | ":constants" => return { d with constants := d.constants ++ (← TypedName.readAll items) }
  | ":predicates" => return { d with predicates := d.predicates ++ (← items.mapM Predicate.read) }
  | ":functions" => return d
  | ":constraints" => throw (.unsupported (.constraint ":constraints"))
  | ":action" => return { d with actions := d.actions ++ [← Action.read e items] }
  | ":durative-action" => throw (.unsupported .durativeAction)
  | ":derived" => return { d with derived := d.derived ++ [← Derived.read e items] }
  | ":axiom" => return { d with axioms := d.axioms ++ [← Axiom.read e items] }
  | _ => unexpected "domain section" e

def read (text : String) : Except Error Domain := do
  let (name, sections) ← readHeader "domain" (← Text.readOne .domain text)
  sections.foldlM addSection { name }

end Domain
end Definition
end TypedPlanning
