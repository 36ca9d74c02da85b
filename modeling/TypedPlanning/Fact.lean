import TypedPlanning.ObjectTable
import TypedPlanning.NamedTable

/-! Predicates and the ground facts over them. Facts are ordered by predicate and then by arguments,
so that a set of facts has one representation. -/

namespace TypedPlanning

structure Signature where
  name : String
  parameters : List String
deriving DecidableEq, Repr

def Signature.arity (s : Signature) : Nat := s.parameters.length

instance : Named Signature := ⟨Signature.name⟩

namespace Object

instance : Ord Object := ⟨compareLex (compareOn name) (compareOn type)⟩

instance : Std.TransOrd Object :=
  inferInstanceAs (Std.TransCmp (compareLex (compareOn name) (compareOn type)))

instance : Std.LawfulEqOrd Object where
  eq_of_compare {a b} same := by
    have ⟨sameName, sameType⟩ := compareLex_eq_eq.mp same
    have hn : a.name = b.name := Std.LawfulEqOrd.eq_of_compare sameName
    have ht : a.type = b.type := Std.LawfulEqOrd.eq_of_compare sameType
    cases a; cases b; simp_all

end Object

structure Fact where
  predicate : String
  arguments : List Object
deriving DecidableEq, Repr

def spaced (name : String) (arguments : List String) : String :=
  " ".intercalate (name :: arguments)

namespace Fact

def arity (p : Fact) : Nat := p.arguments.length

def text (p : Fact) : String := spaced p.predicate (p.arguments.map Object.name)

instance : Ord Fact := ⟨compareLex (compareOn predicate) (compareOn arguments)⟩

instance : Std.TransOrd Fact :=
  inferInstanceAs (Std.TransCmp (compareLex (compareOn predicate) (compareOn arguments)))

instance : Std.LawfulEqOrd Fact where
  eq_of_compare {a b} same := by
    have ⟨samePredicate, sameArguments⟩ := compareLex_eq_eq.mp same
    have hp : a.predicate = b.predicate := Std.LawfulEqOrd.eq_of_compare samePredicate
    have ha : a.arguments = b.arguments := Std.LawfulEqOrd.eq_of_compare sameArguments
    cases a; cases b; simp_all

end Fact
end TypedPlanning
