import TypedPlanning.Definition.TypedName

/-! Goals as they are written. Names are not resolved yet, and nothing is said about their types.
Conditions that need numbers, time, preferences or trajectories are recognised and set aside. -/

namespace TypedPlanning
namespace Definition

inductive Term where
  | name (n : String)
  | variableNamed (v : String)
deriving DecidableEq, Repr

structure Atom where
  predicate : String
  terms : List Term
deriving DecidableEq, Repr

inductive Goal where
  | atom (a : Atom)
  | equal (left right : Term)
  | not (g : Goal)
  | and (gs : List Goal)
  | or (gs : List Goal)
  | imply (antecedent consequent : Goal)
  | forAll (binders : List TypedName) (g : Goal)
  | forSome (binders : List TypedName) (g : Goal)
  | unsupported (feature : Feature)
deriving Repr

open Text (Expression lower)

/-- A question mark at the front marks a variable. -/
def Term.read (e : Expression) : Except Error Term := do
  let w ← expectWord "term" e
  return if w.toList.head? = some '?' then .variableNamed w else .name w

def Atom.read : List Expression → Except Error Atom
  | [] => unexpected "atom" (.list [])
  | head :: terms => return ⟨← expectWord "predicate name" head, ← terms.mapM Term.read⟩

def expectSingle (whole : Expression) : List Expression → Except Error Expression
  | [e] => .ok e
  | _ => unexpected "exactly one argument" whole

/-- Conditions and effects that hold at a point of a duration or all through it. -/
def timed? : List Expression → Option Feature
  | [head, part, last] =>
    if head.isKeyword "at" && (part.isKeyword "start" || part.isKeyword "end") && last.isList then
      some (.temporal s!"at {lower part.text}")
    else if head.isKeyword "over" && part.isKeyword "all" then some (.temporal "over all")
    else none
  | _ => none

def comparisons : List String := ["<", ">", "<=", ">="]

/-- Words that constrain the states passed through, if a condition follows them. -/
def trajectoryWords : List String :=
  ["always", "sometime", "within", "at-most-once", "sometime-after", "sometime-before",
    "always-within", "hold-during", "hold-after"]

namespace Goal

def truth : Goal := .and []

mutual

def read : Expression → Except Error Goal
  | .word w => unexpected "goal" (.word w)
  | .list [] => .ok truth
  | .list (head :: arguments) =>
    match timed? (head :: arguments) with
    | some feature => .ok (.unsupported feature)
    | none =>
      match head with
      | .list items => unexpected "predicate or connective" (.list items)
      | .word w =>
        let whole := .list (.word w :: arguments)
        match lower w with
        | "and" => return .and (← readEach arguments)
        | "or" => return .or (← readEach arguments)
        | "not" =>
          match arguments with
          | [g] => return .not (← read g)
          | _ => unexpected "exactly one argument" whole
        | "imply" =>
          match arguments with
          | [a, b] => return .imply (← read a) (← read b)
          | _ => unexpected "antecedent and consequent" whole
        | "forall" =>
          match arguments with
          | [binders, g] => do
            let binders ← TypedName.readAll (← expectList "variable list" binders)
            return .forAll binders (← read g)
          | _ => unexpected "variable list and body" whole
        | "exists" =>
          match arguments with
          | [binders, g] => do
            let binders ← TypedName.readAll (← expectList "variable list" binders)
            return .forSome binders (← read g)
          | _ => unexpected "variable list and body" whole
        | "=" =>
          match arguments with
          | [.word left, .word right] =>
            return .equal (← Term.read (.word left)) (← Term.read (.word right))
          | _ => .ok (.unsupported (.numericFluent "="))
        | "preference" => .ok (.unsupported .preference)
        | keyword =>
          if comparisons.contains keyword then .ok (.unsupported (.numericFluent keyword))
          else if trajectoryWords.contains keyword && arguments.any Expression.isList then
            .ok (.unsupported (.constraint keyword))
          else return .atom (← Atom.read (.word w :: arguments))

def readEach : List Expression → Except Error (List Goal)
  | [] => .ok []
  | e :: es => return (← read e) :: (← readEach es)

end
end Goal
end Definition
end TypedPlanning
