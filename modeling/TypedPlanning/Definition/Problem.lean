import TypedPlanning.Definition.Domain
import TypedPlanning.Text.Numeral

/-! Problems as they are written: objects, the facts that hold at first, and a goal. -/

namespace TypedPlanning
namespace Definition

structure Problem where
  name : String
  domainName : String
  requirements : List String := []
  objects : List TypedName := []
  initial : List Atom := []
  goal : Goal := .truth
deriving Repr

open Text (Expression)

/-- A fact that holds at first. Negative facts say nothing, since what is not listed does not
hold. -/
def readInitialFact (e : Expression) : Except Error (Option Atom) := do
  let items ← expectList "initial fact" e
  if items.head?.any (·.isKeyword "not") then return none
  if items.head?.any (·.isKeyword "=") then throw (.unsupported (.numericFluent "="))
  if let [head, .word time, .list _] := items then
    if head.isKeyword "at" && Text.isNumeral time then throw (.unsupported .timedInitialLiteral)
  let fact ← Atom.read items
  if fact.terms.any fun | .variableNamed _ => true | .name _ => false then
    unexpected "ground fact" e
  else return some fact

namespace Problem

/-- What has been read of a problem: its domain and its goal may still be missing. -/
structure Draft where
  domainName : Option String := none
  requirements : List String := []
  objects : List TypedName := []
  initial : List Atom := []
  goal : Option Goal := none

/-- Sections may come in any order. Lists grow; a domain or a goal given again counts anew. -/
def Draft.addSection (p : Draft) (e : Expression) : Except Error Draft := do
  let (key, items) ← readSection "problem section" e
  match key with
  | ":domain" =>
    return { p with domainName := some (← expectWord "domain name" (← expectSingle e items)) }
  | ":requirements" =>
    return { p with requirements := p.requirements ++ (← items.mapM (expectWord "requirement")) }
  | ":objects" => return { p with objects := p.objects ++ (← TypedName.readAll items) }
  | ":init" =>
    return { p with initial := p.initial ++ (← items.mapM readInitialFact).filterMap id }
  | ":goal" => return { p with goal := some (← Goal.read (← expectSingle e items)) }
  | ":constraints" => throw (.unsupported (.constraint ":constraints"))
  | ":metric" => throw (.unsupported .metric)
  | ":length" => throw (.unsupported .length)
  | _ => unexpected "problem section" e

def read (text : String) : Except Error Problem := do
  let (name, sections) ← readHeader "problem" (← Text.readOne .problem text)
  let p ← sections.foldlM Draft.addSection {}
  match p.domainName, p.goal with
  | some domainName, some goal => return { p with name, domainName, goal }
  | none, _ => throw (.definition (.missing "`:domain` of problem"))
  | _, none => throw (.definition (.missing "`:goal` of problem"))

end Problem
end Definition
end TypedPlanning
