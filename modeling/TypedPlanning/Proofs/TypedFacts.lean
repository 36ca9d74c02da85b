import TypedPlanning.Proofs.Provenance
import TypedPlanning.Proofs.Typing

/-! The facts that hold while a checked problem is acted upon. First facts, added facts and facts
that axioms derive have the declared types. The head of a derivation is not compared with the
declaration of its predicate, so what it derives has the types that are written in the head. -/

namespace TypedPlanning
open Fallible

namespace Assignment
variable {parameters : List Parameter} {arguments : List Object}

theorem get?_bindAll_of_notMem (g : Assignment) {x : String}
    (other : x ∉ parameters.map Parameter.variableName) :
    (g.bindAll parameters arguments).get? x = g.get? x := by
  induction parameters generalizing g arguments with
  | nil => rfl
  | cons p parameters ih =>
    rw [List.map_cons, List.mem_cons, not_or] at other
    cases arguments with
    | nil => rfl
    | cons o arguments =>
      rw [bindAll_cons, ih _ other.2, get?_bind, if_neg other.1]

theorem get?_bindAll_of_nodup (g : Assignment)
    (distinct : (parameters.map Parameter.variableName).Nodup)
    (fits : arguments.length = parameters.length) :
    List.Forall₂ (fun (p : Parameter) o =>
      (g.bindAll parameters arguments).get? p.variableName = some o) parameters arguments := by
  induction parameters generalizing g arguments with
  | nil =>
    obtain rfl := List.length_eq_zero_iff.mp fits
    exact .nil
  | cons p parameters ih =>
    rw [List.map_cons, List.nodup_cons] at distinct
    cases arguments with
    | nil => cases fits
    | cons o arguments =>
      refine .cons ?_ (ih (g.bind p.variableName o) distinct.2 (Nat.succ.inj fits))
      rw [bindAll_cons, get?_bindAll_of_notMem _ distinct.1, get?_bind, if_pos rfl]

end Assignment

namespace Definition
namespace Declarations
variable {d : Declarations} {context : String}

theorem nodup_of_clean_variables {vs : List TypedName}
    (clean : Clean (d.checkVariables vs context)) : (vs.map TypedName.name).Nodup := by
  suffices after : ∀ before, Clean (d.checkVariablesAfter context before vs) →
      (vs.map TypedName.name).Nodup ∧ ∀ name ∈ vs.map TypedName.name, name ∉ before from
    (after [] clean).1
  clear clean
  induction vs with
  | nil => simp
  | cons x vs ih =>
    intro before clean
    rw [checkVariablesAfter, clean_append, clean_append] at clean
    obtain ⟨⟨fresh, -⟩, rest⟩ := clean
    obtain ⟨distinct, later⟩ := ih _ rest
    have new : x.name ∉ before := by
      intro old
      rw [if_pos (List.contains_iff_mem.mpr old)] at fresh
      exact not_clean_error fresh
    simp only [List.mem_cons, not_or] at later
    refine ⟨List.nodup_cons.mpr ⟨fun again => (later _ again).1 rfl, distinct⟩, ?_⟩
    exact List.forall_mem_cons.mpr ⟨new, fun name hname => (later name hname).2⟩

end Declarations
end Definition

namespace Vocabulary
variable {v : Vocabulary} {σ : Definition.Setting} {f : Fact}

/-- The fact has the predicate of the head, and each argument is of the type written in the head. -/
def TypesBy (v : Vocabulary) (head : Definition.Predicate) (f : Fact) : Prop :=
  f.predicate = head.name ∧ List.Forall₂ (fun o (x : Definition.TypedName) =>
    v.objects.satisfies o x.type = true) f.arguments head.parameters

/-- The types written in the head are those declared for its predicate, or lie below them. -/
def Conforms (v : Vocabulary) (head : Definition.Predicate) : Prop :=
  ∃ signature, v.predicates.get? head.name = some signature ∧
    List.Forall₂ (fun (x : Definition.TypedName) type =>
      v.objects.types.isSubtype x.type type = true) head.parameters signature.parameters

/-- The fact has the declared types, or those written in the head of a derivation of it. -/
def TypesOrDerives (v : Vocabulary) (derived : List Definition.Derived) (f : Fact) : Prop :=
  v.Types f ∨ ∃ r ∈ derived, v.TypesBy r.head f

theorem Agrees.types_of_conforms (agrees : v.Agrees σ) {head : Definition.Predicate}
    (typed : v.TypesBy head f) (conforms : v.Conforms head) : v.Types f := by
  obtain ⟨same, typed⟩ := typed
  obtain ⟨signature, declared, below⟩ := conforms
  refine ⟨signature, same ▸ declared, ?_⟩
  refine forall₂_trans (fun o (x : Definition.TypedName) type lower upper => ?_) typed below
  exact agrees.satisfies_trans lower upper

/-- What the rule of a derivation derives has the types written in the head. The variables of the
head are distinct, so each argument is the one that was chosen for its place. -/
theorem typesBy_of_isInstance {r : Definition.Derived} {rule : Rule}
    (translated : v.derivedRule r = .ok rule)
    (distinct : (r.head.parameters.map Definition.TypedName.name).Nodup)
    (derived : rule.IsInstance v.objects f) : v.TypesBy r.head f := by
  obtain ⟨-, body, -, rfl⟩ := derivedRule_eq_ok.mp translated
  obtain ⟨arguments, admitted, same, values⟩ := derived
  refine ⟨same, ?_⟩
  have bound := Assignment.get?_bindAll_of_nodup .empty
    (by rw [List.map_map]; exact distinct) admitted.length_eq
  rw [List.forall₂_map_left_iff] at bound values
  have unique : Relator.RightUnique fun (x : Definition.TypedName) o =>
      (Assignment.ofArguments (r.head.parameters.map Parameter.of) arguments).get? x.name =
        some o := by
    intro x o o' first second
    exact Option.some.inj (first.symm.trans second)
  obtain rfl : f.arguments = arguments := unique.forall₂ values bound
  exact (List.forall₂_map_right_iff.mp admitted).imp fun o x fits => fits.2

end Vocabulary

namespace Problem
variable {v : Vocabulary} {p : Problem} {domain : Definition.Domain}
  {problem : Definition.Problem} {s s' : State}

/-- The initial state, and every state that an action of the problem leads to, with any arguments it
accepts and whether or not it is applicable. -/
inductive Attained (p : Problem) : State → Prop where
  | initial : p.Attained p.initial
  | apply {s s' : State} {a : Action} {arguments : List Object} : p.Attained s →
    a ∈ p.actions.toList → p.apply s a arguments = .ok s' → p.Attained s'

namespace MadeFrom
variable (made : MadeFrom domain problem v p) {d : Definition.Declarations}
  (passes : Definition.Passes domain problem d)
include made passes

theorem typed_of_isInstance {r : Rule} (hr : r ∈ p.rules) {f : Fact}
    (derived : r.IsInstance v.objects f) : v.TypesOrDerives domain.derived f := by
  have records := passes.records v made.vocabulary
  have agrees := Vocabulary.agrees_ofDefinitions made.vocabulary
  obtain hr | hr := List.mem_append.mp hr
  · obtain ⟨e, he, translated⟩ := exists_of_mem_right (mapM_eq_ok.mp made.derived) hr
    have clean := passes.bodies e he
    rw [Definition.Declarations.checkDerivedBody, clean_append] at clean
    have distinct := Definition.Declarations.nodup_of_clean_variables clean.1
    exact .inr ⟨e, he, Vocabulary.typesBy_of_isInstance translated distinct derived⟩
  · obtain ⟨e, he, translated⟩ := exists_of_mem_right (mapM_eq_ok.mp made.axioms) hr
    obtain ⟨context, binders, -, a, same, clean⟩ :=
      Definition.Declarations.clean_axioms passes.axioms e he
    obtain ⟨-, body, -, head, implied, rfl⟩ := Vocabulary.rule_eq_ok.mp translated
    obtain ⟨b, same', translated⟩ := Vocabulary.ruleHead_eq_ok.mp implied
    obtain rfl := Definition.Goal.atom.inj (same.symm.trans same')
    obtain ⟨arguments, admitted, denoted⟩ := derived
    rw [agrees.denotes_iff translated, Assignment.ofArguments,
      Vocabulary.get?_bindAll_of] at denoted
    have typed := (List.forall₂_map_right_iff.mp admitted).imp fun o x fits => fits.2
    have suits := (Definition.Declarations.suits_nil v.objects Assignment.empty.get?).bind
      (Definition.Declarations.mem_types_of_clean_variables binders) typed
    exact .inl (Definition.Declarations.types_of_clean_atom records agrees suits clean denoted)

theorem typed_of_close (closed : (Rule.close v.objects p.rules).result s = .ok s')
    (before : ∀ f ∈ s, v.TypesOrDerives domain.derived f) :
    ∀ f ∈ s', v.TypesOrDerives domain.derived f := by
  intro f hf
  obtain old | ⟨r, hr, derived⟩ := Rule.mem_close made.coherent closed hf
  · exact before f old
  · exact made.typed_of_isInstance passes hr derived

theorem typed_of_apply {a : Action} (ha : a ∈ p.actions.toList) {arguments : List Object}
    (applied : a.apply v.objects s arguments = .ok s')
    (before : ∀ f ∈ s, v.TypesOrDerives domain.derived f) :
    ∀ f ∈ s', v.TypesOrDerives domain.derived f := by
  intro f hf
  obtain old | added := a.mem_apply made.coherent applied hf
  · exact before f old
  · have records := passes.records v made.vocabulary
    have agrees := Vocabulary.agrees_ofDefinitions made.vocabulary
    have accepted := a.accepts_of_apply applied
    obtain ⟨e, he, -, translated⟩ := made.readable_action_of_mem ha
    obtain ⟨context, binders, -, clean⟩ :=
      Definition.Declarations.clean_actions passes.actions e he
    obtain ⟨-, body, -, effects, heffects, rfl⟩ := Vocabulary.action_eq_ok.mp translated
    rw [agrees.changeIn_eq heffects, Assignment.ofArguments, Vocabulary.get?_bindAll_of] at added
    have suits := (Definition.Declarations.suits_nil v.objects Assignment.empty.get?).bind
      (Definition.Declarations.mem_types_of_clean_variables binders)
      (List.forall₂_map_right_iff.mp accepted)
    exact .inl (Definition.Declarations.types_of_clean_effect records agrees suits clean added)

theorem typed_of_attained (attained : p.Attained s) :
    ∀ f ∈ s, v.TypesOrDerives domain.derived f := by
  induction attained with
  | initial =>
    have records := passes.records v made.vocabulary
    have agrees := Vocabulary.agrees_ofDefinitions made.vocabulary
    obtain ⟨facts, translated, closed⟩ := made.initial
    refine made.typed_of_close passes closed fun f hf => ?_
    obtain ⟨a, ha, translated⟩ :=
      exists_of_mem_right (mapM_eq_ok.mp translated) (State.mem_ofList.mp hf)
    have denoted := agrees.denotes_of_proposition translated .empty
    have suits := Definition.Declarations.suits_nil v.objects .empty
    exact .inl (Definition.Declarations.types_of_clean_atom records agrees suits
      (passes.initial a ha) denoted)
  | @apply s s' a arguments _ ha taken ih =>
    obtain ⟨t, applied, closed⟩ := bind_eq_ok.mp taken
    rw [closed_eq_result, Problem.close, made.objects] at closed
    rw [made.objects] at applied
    exact made.typed_of_close passes closed (made.typed_of_apply passes ha applied ih)

end MadeFrom

/-- In a problem that has passed the check, every fact of an attained state has the declared types
or those of a derivation whose head does not conform to the declaration of its predicate. Where all
heads conform, all facts have the declared types. -/
theorem facts_typed_or_derived {verbose : Bool}
    (passed : (Definition.typecheck verbose domain problem).passed = true)
    (built : ofDefinitions domain problem = .ok p) :
    (∀ s, p.Attained s → ∀ f ∈ s, p.vocabulary.Types f ∨
      ∃ r ∈ domain.derived, ¬ p.vocabulary.Conforms r.head ∧ p.vocabulary.TypesBy r.head f) ∧
    ((∀ r ∈ domain.derived, p.vocabulary.Conforms r.head) →
      ∀ s, p.Attained s → ∀ f ∈ s, p.vocabulary.Types f) := by
  obtain ⟨v, made⟩ := madeFrom_of_ofDefinitions built
  obtain ⟨d, passes⟩ := Definition.exists_passes_of_passed passed
  have agrees := Vocabulary.agrees_ofDefinitions made.vocabulary
  rw [← made.vocabulary_eq]
  have each : ∀ s, p.Attained s → ∀ f ∈ s, v.Types f ∨
      ∃ r ∈ domain.derived, ¬ v.Conforms r.head ∧ v.TypesBy r.head f := by
    intro s attained f hf
    obtain typed | ⟨r, hr, derived⟩ := made.typed_of_attained passes attained f hf
    · exact .inl typed
    · by_cases conforms : v.Conforms r.head
      · exact .inl (agrees.types_of_conforms derived conforms)
      · exact .inr ⟨r, hr, conforms, derived⟩
  refine ⟨each, fun conform s attained f hf => (each s attained f hf).resolve_right ?_⟩
  rintro ⟨r, hr, strays, -⟩
  exact strays (conform r hr)

/-- Whatever is toggled, only switches are on, and only lamps are lit. -/
theorem facts_typed_lamps : ∃ p, ofDefinitions lampDomain lampProblem = .ok p ∧
    ∀ s, p.Attained s → ∀ f ∈ s, p.vocabulary.Types f := by
  have passed : (Definition.typecheck false lampDomain lampProblem).passed = true := by
    decide +kernel
  have built : ∃ p, ofDefinitions lampDomain lampProblem = .ok p ∧
      p.vocabulary.predicates.get? "lit" = some ⟨"lit", ["lamp"]⟩ := by
    refine exists_ok_and ?_
    decide +kernel
  obtain ⟨p, built, declared⟩ := built
  refine ⟨p, built, (facts_typed_or_derived passed built).2 fun r hr => ?_⟩
  obtain rfl := List.mem_singleton.mp hr
  refine ⟨_, declared, .cons ?_ .nil⟩
  simp [TypeHierarchy.isSubtype]

def petDomain : Definition.Domain where
  name := "pets"
  types := [⟨"dog", "object"⟩, ⟨"cat", "object"⟩]
  predicates := [⟨"likes", [⟨"?x", "dog"⟩]⟩, ⟨"meows", [⟨"?x", "cat"⟩]⟩]
  derived := [⟨⟨"likes", [⟨"?x", "cat"⟩]⟩, .atom ⟨"meows", [.variableNamed "?x"]⟩⟩]

def petProblem : Definition.Problem where
  name := "home"
  domainName := "pets"
  objects := [⟨"tom", "cat"⟩]
  initial := [⟨"meows", [.name "tom"]⟩]

/-- The check passes, and a cat has what is declared for dogs. -/
theorem facts_mistyped_pets :
    (Definition.typecheck false petDomain petProblem).passed = true ∧
    ∃ p, ofDefinitions petDomain petProblem = .ok p ∧ p.Attained p.initial ∧
      ∃ f ∈ p.initial, ¬ p.vocabulary.Types f := by
  have passed : (Definition.typecheck false petDomain petProblem).passed = true := by
    decide +kernel
  have built : ∃ p, ofDefinitions petDomain petProblem = .ok p ∧
      p.initial.contains ⟨"likes", [⟨"tom", "cat"⟩]⟩ = true ∧
        p.vocabulary.predicates.get? "likes" = some ⟨"likes", ["dog"]⟩ ∧
          p.vocabulary.objects.satisfies ⟨"tom", "cat"⟩ "dog" = false := by
    refine exists_ok_and ?_
    decide +kernel
  obtain ⟨p, built, there, declared, apart⟩ := built
  refine ⟨passed, p, built, .initial, _, Std.ExtTreeSet.contains_iff_mem.mp there, ?_⟩
  rintro ⟨signature, found, typed⟩
  obtain rfl := Option.some.inj (declared.symm.trans found)
  obtain ⟨first, -⟩ := List.forall₂_cons.mp typed
  rw [apart] at first
  cases first

end Problem
end TypedPlanning
