import TypedPlanning.Definition.Problem
import TypedPlanning.Proofs.Layouts

/-! Definitions written out as expressions, with every section present and in one order, and the
definitions of which the words are such that they can be written and mean themselves. -/

namespace TypedPlanning
namespace Definition

open Text (Expression IsWord lower)

def TypedName.write (d : TypedName) : List Expression := [.word d.name, .word "-", .word d.type]

def TypedName.writeAll (ds : List TypedName) : List Expression := ds.flatMap write

/-- A dash would be taken for the mark before a type. Types themselves follow such a mark. -/
def TypedName.isWritable (d : TypedName) : Bool := IsWord d.name ∧ IsWord d.type ∧ d.name ≠ "-"

def Term.write : Term → Expression
  | .name n => .word n
  | .variableNamed v => .word v

def Term.isWritable : Term → Bool
  | .name n => IsWord n ∧ n.toList.head? ≠ some '?'
  | .variableNamed v => IsWord v ∧ v.toList.head? = some '?'

def Term.isName : Term → Bool
  | .name _ => true
  | .variableNamed _ => false

namespace Atom

def items (a : Atom) : List Expression := .word a.predicate :: a.terms.map Term.write

def write (a : Atom) : Expression := .list a.items

def isWritable (a : Atom) : Bool := IsWord a.predicate ∧ a.terms.all Term.isWritable

/-- Read as a condition on a duration, in goals as in effects. -/
def isOverAll (a : Atom) : Bool :=
  match a.terms with
  | [part, _] => (Expression.word a.predicate).isKeyword "over" && part.write.isKeyword "all"
  | _ => false

def isInitial (a : Atom) : Bool := a.terms.all Term.isName ∧ lower a.predicate ∉ ["not", "="]

end Atom

/-- Words of which none can be the predicate of a goal. -/
def goalKeywords : List String :=
  ["and", "or", "not", "imply", "forall", "exists", "=", "preference"] ++ comparisons

def effectKeywords : List String := ["and", "not", "when", "forall"] ++ numericChanges

namespace Goal

mutual

/-- Of a condition that was set aside nothing is left to be written. -/
def write : Goal → Expression
  | .atom a => a.write
  | .equal left right => .list [.word "=", left.write, right.write]
  | .not g => .list [.word "not", g.write]
  | .and gs => .list (.word "and" :: writeEach gs)
  | .or gs => .list (.word "or" :: writeEach gs)
  | .imply a b => .list [.word "imply", a.write, b.write]
  | .forAll binders g =>
    .list [.word "forall", .list (TypedName.writeAll binders), g.write]
  | .forSome binders g =>
    .list [.word "exists", .list (TypedName.writeAll binders), g.write]
  | .unsupported _ => .list []

def writeEach : List Goal → List Expression
  | [] => []
  | g :: gs => g.write :: writeEach gs

end

mutual

def isWritable : Goal → Bool
  | .atom a => a.isWritable ∧ !a.isOverAll ∧ lower a.predicate ∉ goalKeywords
  | .equal left right => left.isWritable ∧ right.isWritable
  | .not g => g.isWritable
  | .and gs => areWritable gs
  | .or gs => areWritable gs
  | .imply a b => a.isWritable ∧ b.isWritable
  | .forAll binders g => binders.all TypedName.isWritable ∧ g.isWritable
  | .forSome binders g => binders.all TypedName.isWritable ∧ g.isWritable
  | .unsupported _ => false

def areWritable : List Goal → Bool
  | [] => true
  | g :: gs => g.isWritable ∧ areWritable gs

end
end Goal

namespace Effect

mutual

def write : Effect → Expression
  | .add a => a.write
  | .delete a => .list [.word "not", a.write]
  | .and es => .list (.word "and" :: writeEach es)
  | .when guard e => .list [.word "when", guard.write, e.write]
  | .forAll binders e => .list [.word "forall", .list (TypedName.writeAll binders), e.write]
  | .unsupported _ => .list []

def writeEach : List Effect → List Expression
  | [] => []
  | e :: es => e.write :: writeEach es

end

mutual

/-- A fact that is taken away may have any predicate. -/
def isWritable : Effect → Bool
  | .add a => a.isWritable ∧ !a.isOverAll ∧ lower a.predicate ∉ effectKeywords
  | .delete a => a.isWritable
  | .and es => areWritable es
  | .when guard e => guard.isWritable ∧ e.isWritable
  | .forAll binders e => binders.all TypedName.isWritable ∧ e.isWritable
  | .unsupported _ => false

def areWritable : List Effect → Bool
  | [] => true
  | e :: es => e.isWritable ∧ areWritable es

end
end Effect

def Predicate.write (p : Predicate) : Expression :=
  .list (.word p.name :: TypedName.writeAll p.parameters)

def Predicate.isWritable (p : Predicate) : Bool :=
  IsWord p.name ∧ p.parameters.all TypedName.isWritable

def Action.write (a : Action) : Expression :=
  .list [.word ":action", .word a.name, .word ":parameters",
    .list (TypedName.writeAll a.parameters), .word ":precondition", a.precondition.write,
    .word ":effect", a.effect.write]

def Action.isWritable (a : Action) : Bool :=
  IsWord a.name ∧ a.parameters.all TypedName.isWritable ∧ a.precondition.isWritable ∧
    a.effect.isWritable

def Axiom.write (a : Axiom) : Expression :=
  .list [.word ":axiom", .word ":vars", .list (TypedName.writeAll a.binders), .word ":context",
    a.context.write, .word ":implies", a.implies.write]

def Axiom.isWritable (a : Axiom) : Bool :=
  a.binders.all TypedName.isWritable ∧ a.context.isWritable ∧ a.implies.isWritable

def Derived.write (d : Derived) : Expression :=
  .list [.word ":derived", d.head.write, d.body.write]

def Derived.isWritable (d : Derived) : Bool := d.head.isWritable ∧ d.body.isWritable

def writeDefinition (kind name : String) (sections : List Expression) : Expression :=
  .list (.word "define" :: .list [.word kind, .word name] :: sections)

def Domain.sections (d : Domain) : List Expression :=
  [.list (.word ":requirements" :: d.requirements.map .word),
    .list (.word ":types" :: TypedName.writeAll d.types),
    .list (.word ":constants" :: TypedName.writeAll d.constants),
    .list (.word ":predicates" :: d.predicates.map Predicate.write)] ++
  (d.derived.map Derived.write ++ (d.axioms.map Axiom.write ++ d.actions.map Action.write))

def Domain.write (d : Domain) : Expression := writeDefinition "domain" d.name d.sections

def Domain.isWritable (d : Domain) : Bool :=
  IsWord d.name ∧ d.requirements.all (IsWord ·) ∧ d.types.all TypedName.isWritable ∧
    d.constants.all TypedName.isWritable ∧ d.predicates.all Predicate.isWritable ∧
    d.derived.all Derived.isWritable ∧ d.axioms.all Axiom.isWritable ∧
    d.actions.all Action.isWritable

def Problem.sections (p : Problem) : List Expression :=
  [.list [.word ":domain", .word p.domainName],
    .list (.word ":requirements" :: p.requirements.map .word),
    .list (.word ":objects" :: TypedName.writeAll p.objects),
    .list (.word ":init" :: p.initial.map Atom.write),
    .list [.word ":goal", p.goal.write]]

def Problem.write (p : Problem) : Expression := writeDefinition "problem" p.name p.sections

def Problem.isWritable (p : Problem) : Bool :=
  IsWord p.name ∧ IsWord p.domainName ∧ p.requirements.all (IsWord ·) ∧
    p.objects.all TypedName.isWritable ∧
    (p.initial.all fun a => a.isWritable ∧ a.isInitial) ∧ p.goal.isWritable

open Text.Expression (Written written_nil written_cons written_cons_cons written_append written_word
  written_list written_of_forall)

theorem written_keyword {w : String} {es : List Expression} (proper : IsWord w)
    (arguments : Written es) : Written [.list (.word w :: es)] :=
  written_list.mpr (written_cons.mpr ⟨written_word.mpr proper, arguments⟩)

theorem written_map {α : Type} {write : α → Expression} {xs : List α}
    (written : ∀ x ∈ xs, Written [write x]) : Written (xs.map write) :=
  written_of_forall (List.forall_mem_map.mpr written)

theorem TypedName.written_writeAll {ds : List TypedName} (writable : ds.all isWritable) :
    Written (writeAll ds) := by
  induction ds with
  | nil => exact written_nil
  | cons d ds ih =>
    simp only [List.all_cons, Bool.and_eq_true, isWritable, decide_eq_true_eq] at writable
    obtain ⟨⟨name, type, -⟩, others⟩ := writable
    refine written_cons.mpr ⟨written_word.mpr name, written_cons.mpr ⟨?_, written_cons.mpr ?_⟩⟩
    · exact written_word.mpr (by decide)
    · exact ⟨written_word.mpr type, ih others⟩

theorem Term.written_write {t : Term} (writable : t.isWritable) : Written [t.write] := by
  cases t <;> simp_all [isWritable, write]

theorem Atom.written_write {a : Atom} (writable : a.isWritable) : Written [a.write] := by
  simp only [isWritable, decide_eq_true_eq, List.all_eq_true] at writable
  exact written_keyword writable.1 (written_map fun t ht => Term.written_write (writable.2 t ht))

theorem written_quantified {w : String} {binders : List TypedName} {e : Expression}
    (proper : IsWord w) (writable : binders.all TypedName.isWritable) (body : Written [e]) :
    Written [.list [.word w, .list (TypedName.writeAll binders), e]] :=
  written_keyword proper
    (written_cons.mpr ⟨written_list.mpr (TypedName.written_writeAll writable), body⟩)

mutual

theorem Goal.written_write (g : Goal) (writable : g.isWritable) : Written [g.write] := by
  match g with
  | .atom a =>
    simp only [isWritable, decide_eq_true_eq] at writable
    exact Atom.written_write writable.1
  | .equal left right =>
    simp only [isWritable, decide_eq_true_eq] at writable
    exact written_keyword (by decide) (written_cons.mpr
      ⟨Term.written_write writable.1, Term.written_write writable.2⟩)
  | .not g => exact written_keyword (by decide) (Goal.written_write g writable)
  | .and gs => exact written_keyword (by decide) (Goal.written_writeEach gs writable)
  | .or gs => exact written_keyword (by decide) (Goal.written_writeEach gs writable)
  | .imply a b =>
    simp only [isWritable, decide_eq_true_eq] at writable
    exact written_keyword (by decide) (written_cons.mpr
      ⟨Goal.written_write a writable.1, Goal.written_write b writable.2⟩)
  | .forAll binders g =>
    simp only [isWritable, decide_eq_true_eq] at writable
    exact written_quantified (by decide) writable.1 (Goal.written_write g writable.2)
  | .forSome binders g =>
    simp only [isWritable, decide_eq_true_eq] at writable
    exact written_quantified (by decide) writable.1 (Goal.written_write g writable.2)
  | .unsupported _ => cases writable

theorem Goal.written_writeEach (gs : List Goal) (writable : Goal.areWritable gs) :
    Written (Goal.writeEach gs) := by
  match gs with
  | [] => exact written_nil
  | g :: gs =>
    simp only [areWritable, decide_eq_true_eq] at writable
    exact written_cons.mpr
      ⟨Goal.written_write g writable.1, Goal.written_writeEach gs writable.2⟩

end

mutual

theorem Effect.written_write (e : Effect) (writable : e.isWritable) : Written [e.write] := by
  match e with
  | .add a =>
    simp only [isWritable, decide_eq_true_eq] at writable
    exact Atom.written_write writable.1
  | .delete a => exact written_keyword (by decide) (Atom.written_write writable)
  | .and es => exact written_keyword (by decide) (Effect.written_writeEach es writable)
  | .when guard e =>
    simp only [isWritable, decide_eq_true_eq] at writable
    exact written_keyword (by decide) (written_cons.mpr
      ⟨guard.written_write writable.1, Effect.written_write e writable.2⟩)
  | .forAll binders e =>
    simp only [isWritable, decide_eq_true_eq] at writable
    exact written_quantified (by decide) writable.1 (Effect.written_write e writable.2)
  | .unsupported _ => cases writable

theorem Effect.written_writeEach (es : List Effect) (writable : Effect.areWritable es) :
    Written (Effect.writeEach es) := by
  match es with
  | [] => exact written_nil
  | e :: es =>
    simp only [areWritable, decide_eq_true_eq] at writable
    exact written_cons.mpr
      ⟨Effect.written_write e writable.1, Effect.written_writeEach es writable.2⟩

end

theorem Predicate.written_write {p : Predicate} (writable : p.isWritable) : Written [p.write] := by
  simp only [isWritable, decide_eq_true_eq] at writable
  exact written_keyword writable.1 (TypedName.written_writeAll writable.2)

theorem Action.written_write {a : Action} (writable : a.isWritable) : Written [a.write] := by
  simp only [isWritable, decide_eq_true_eq] at writable
  obtain ⟨name, parameters, precondition, effect⟩ := writable
  have words : IsWord ":action" ∧ IsWord ":parameters" ∧ IsWord ":precondition" ∧
      IsWord ":effect" := by decide
  simp [write, words, name, TypedName.written_writeAll parameters,
    Goal.written_write _ precondition, Effect.written_write _ effect]

theorem Axiom.written_write {a : Axiom} (writable : a.isWritable) : Written [a.write] := by
  simp only [isWritable, decide_eq_true_eq] at writable
  obtain ⟨binders, context, implies⟩ := writable
  have words : IsWord ":axiom" ∧ IsWord ":vars" ∧ IsWord ":context" ∧ IsWord ":implies" := by
    decide
  simp [write, words, TypedName.written_writeAll binders, Goal.written_write _ context,
    Goal.written_write _ implies]

theorem Derived.written_write {d : Derived} (writable : d.isWritable) : Written [d.write] := by
  simp only [isWritable, decide_eq_true_eq] at writable
  have word : IsWord ":derived" := by decide
  simp [write, word, Predicate.written_write writable.1, Goal.written_write _ writable.2]

theorem written_writeDefinition {kind name : String} {sections : List Expression}
    (proper : IsWord kind ∧ IsWord name) (written : Written sections) :
    Written [writeDefinition kind name sections] := by
  refine written_keyword (by decide) (written_cons.mpr ⟨?_, written⟩)
  exact written_keyword proper.1 (written_word.mpr proper.2)

theorem written_words {ws : List String} (proper : ∀ w ∈ ws, IsWord w) :
    Written (ws.map .word) :=
  written_map fun w hw => written_word.mpr (proper w hw)

theorem Domain.written_write {d : Domain} (writable : d.isWritable) : Written [d.write] := by
  simp only [isWritable, decide_eq_true_eq] at writable
  obtain ⟨name, requirements, types, constants, predicates, derived, axioms, actions⟩ := writable
  simp only [List.all_eq_true, decide_eq_true_eq] at requirements predicates derived axioms actions
  refine written_writeDefinition ⟨by decide, name⟩ (written_append.mpr ⟨?_, ?_⟩)
  · simp only [written_cons_cons]
    exact ⟨written_keyword (by decide) (written_words requirements),
      written_keyword (by decide) (TypedName.written_writeAll types),
      written_keyword (by decide) (TypedName.written_writeAll constants),
      written_keyword (by decide) (written_map fun p hp => Predicate.written_write (predicates p hp))⟩
  · refine written_append.mpr ⟨written_map fun d hd => Derived.written_write (derived d hd), ?_⟩
    exact written_append.mpr ⟨written_map fun a ha => Axiom.written_write (axioms a ha),
      written_map fun a ha => Action.written_write (actions a ha)⟩

theorem Problem.written_write {p : Problem} (writable : p.isWritable) : Written [p.write] := by
  simp only [isWritable, decide_eq_true_eq] at writable
  obtain ⟨name, domainName, requirements, objects, initial, goal⟩ := writable
  simp only [List.all_eq_true, decide_eq_true_eq] at requirements initial
  refine written_writeDefinition ⟨by decide, name⟩ ?_
  simp only [sections, written_cons_cons]
  exact ⟨written_keyword (by decide) (written_word.mpr domainName),
    written_keyword (by decide) (written_words requirements),
    written_keyword (by decide) (TypedName.written_writeAll objects),
    written_keyword (by decide) (written_map fun a ha => Atom.written_write (initial a ha).1),
    written_keyword (by decide) (Goal.written_write _ goal)⟩

end Definition
end TypedPlanning
