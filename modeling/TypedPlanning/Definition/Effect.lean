import TypedPlanning.Definition.Goal

/-! Effects as they are written. Conjunctions may be nested; what changes numbers or depends on time
is recognised and set aside. -/

namespace TypedPlanning
namespace Definition

inductive Effect where
  | add (a : Atom)
  | delete (a : Atom)
  | and (es : List Effect)
  | when (guard : Goal) (e : Effect)
  | forAll (binders : List TypedName) (e : Effect)
  | unsupported (feature : Feature)
deriving Repr

open Text (Expression lower)

def numericChanges : List String := ["increase", "decrease", "assign", "scale-up", "scale-down"]

namespace Effect

def nothing : Effect := .and []

mutual

def read : Expression → Except Error Effect
  | .word w => unexpected "effect" (.word w)
  | .list [] => .ok nothing
  | .list (head :: arguments) =>
    match timed? (head :: arguments) with
    | some feature => .ok (.unsupported feature)
    | none =>
      match head with
      | .list items => unexpected "predicate or effect keyword" (.list items)
      | .word w =>
        let whole := .list (.word w :: arguments)
        match lower w with
        | "and" => return .and (← readEach arguments)
        | "not" => do
          let negated ← expectSingle whole arguments
          return .delete (← Atom.read (← expectList "atom" negated))
        | "when" =>
          match arguments with
          | [guard, e] => return .when (← Goal.read guard) (← read e)
          | _ => unexpected "condition and effect" whole
        | "forall" =>
          match arguments with
          | [binders, e] => do
            let binders ← TypedName.readAll (← expectList "variable list" binders)
            return .forAll binders (← read e)
          | _ => unexpected "variable list and body" whole
        | keyword =>
          if numericChanges.contains keyword then .ok (.unsupported (.numericFluent keyword))
          else return .add (← Atom.read (.word w :: arguments))

def readEach : List Expression → Except Error (List Effect)
  | [] => .ok []
  | e :: es => return (← read e) :: (← readEach es)

end
end Effect
end Definition
end TypedPlanning
