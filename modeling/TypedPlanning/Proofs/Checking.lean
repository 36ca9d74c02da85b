import TypedPlanning.Definition.Typecheck
import TypedPlanning.Proofs.Translation

/-! The static check sees what the translation needs. Where it finds no error in a goal, an effect,
an action or a rule, the translation of that succeeds, given that both know the same types, objects
and predicates and that every variable known to the check is in scope. -/

namespace TypedPlanning
open Fallible

def Clean (ds : List Diagnostic) : Prop := ∀ d ∈ ds, d.isError = false

theorem Report.passed_iff_clean (r : Report) : r.passed = true ↔ Clean r.diagnostics := by
  simp [Report.passed, Clean]

theorem clean_append {ds es : List Diagnostic} : Clean (ds ++ es) ↔ Clean ds ∧ Clean es :=
  List.forall_mem_append

theorem clean_flatMap {α : Type} {as : List α} {check : α → List Diagnostic} :
    Clean (as.flatMap check) ↔ ∀ a ∈ as, Clean (check a) := by
  simp only [Clean, List.mem_flatMap, forall_exists_index, and_imp]
  exact ⟨fun clean a ha d hd => clean d a ha hd, fun clean d a ha hd => clean a ha d hd⟩

theorem not_clean_error {message : String} : ¬ Clean (Definition.Declarations.error message) := by
  intro clean
  cases clean _ List.mem_cons_self

theorem clean_ite_error {P : Prop} [Decidable P] {ds : List Diagnostic} {message : String}
    (clean : Clean (if P then ds else Definition.Declarations.error message)) : P ∧ Clean ds := by
  split at clean
  · next holds => exact ⟨holds, clean⟩
  · exact absurd clean not_clean_error

namespace Definition
namespace Declarations

/-- What is declared for the check is declared for the translation, and the other way round. -/
structure Matches (d : Declarations) (v : Vocabulary) : Prop where
  types : d.types = v.objects.types
  objects : ∀ name, (d.objects.lookup name).isSome = (v.objects.get? name).isSome
  predicates : ∀ name,
    (d.predicates.lookup name).map List.length = (v.predicates.get? name).map Signature.arity

/-- The types of objects and of arguments are the same for the check and for the translation. -/
structure Records (d : Declarations) (v : Vocabulary) : Prop where
  types : d.types = v.objects.types
  objects : ∀ name, d.objects.lookup name = (v.objects.get? name).map fun o => some o.type
  predicates : ∀ name,
    d.predicates.lookup name = (v.predicates.get? name).map fun s => s.parameters.map some

def Inside (scope : Scope) (names : List String) : Prop :=
  ∀ x, (scope.lookup x).isSome = true → x ∈ names

variable {d : Declarations} {v : Vocabulary} {scope : Scope} {names : List String}
  {context : String}

theorem Records.toMatches (records : d.Records v) : d.Matches v := by
  refine ⟨records.types, fun name => ?_, fun name => ?_⟩
  · rw [records.objects, Option.isSome_map]
  · rw [records.predicates, Option.map_map]
    exact congrArg (Option.map · _) (funext fun signature => List.length_map _)

theorem mem_types_of_clean {type : String} (clean : Clean (d.checkType type context)) :
    type ∈ d.types.types := by
  unfold checkType at clean
  split at clean
  · next found => exact (TypeHierarchy.get?_eq_some.mp found).1
  · exact absurd clean not_clean_error

theorem mem_types_of_clean_variables {vs : List TypedName}
    (clean : Clean (d.checkVariables vs context)) : ∀ x ∈ vs, x.type ∈ d.types.types := by
  rw [checkVariables] at clean
  generalize [] = before at clean
  induction vs generalizing before with
  | nil => simp
  | cons x vs ih =>
    rw [checkVariablesAfter, clean_append, clean_append] at clean
    obtain ⟨⟨-, declared⟩, rest⟩ := clean
    exact List.forall_mem_cons.mpr ⟨mem_types_of_clean declared, ih _ rest⟩

theorem Matches.typed_of_clean (agree : d.Matches v) {vs : List TypedName}
    (clean : Clean (d.checkVariables vs context)) : ∀ x ∈ vs, x.type ∈ v.objects.types.types := by
  rw [← agree.types]
  exact mem_types_of_clean_variables clean

theorem isSome_lookup_iff {α : Type} {pairs : List (String × α)} {x : String} :
    (pairs.lookup x).isSome = true ↔ x ∈ pairs.map Prod.fst := by
  induction pairs with
  | nil => simp
  | cons pair pairs ih =>
    rw [List.lookup_cons, List.map_cons, List.mem_cons, ← ih]
    by_cases same : x = pair.1
    · simp [same]
    · simp [beq_false_of_ne same, same]

theorem Inside.extend (inside : Inside scope names) (d : Declarations) (vs : List TypedName) :
    Inside (d.extend vs scope) (Vocabulary.within (vs.map Parameter.of) names) := by
  intro x known
  rw [isSome_lookup_iff, Declarations.extend, List.map_append, List.mem_append] at known
  rw [Vocabulary.within, List.mem_append]
  obtain bound | outer := known
  · refine .inl ?_
    simpa [Parameter.of, and_comm] using bound
  · exact .inr (inside x (isSome_lookup_iff.mpr outer))

theorem inside_nil : Inside [] [] := by
  intro x known
  cases known

theorem exists_term_of_clean (agree : d.Matches v) (inside : Inside scope names) {t : Term}
    (clean : Clean (d.checkTerm scope context t)) : ∃ u, v.term names t = .ok u := by
  cases t with
  | name n =>
    cases known : d.objects.lookup n with
    | none =>
      simp only [checkTerm, typeOf?, known] at clean
      exact absurd clean not_clean_error
    | some type =>
      have indexed : (v.objects.get? n).isSome = true := by
        rw [← agree.objects, known]
        rfl
      obtain ⟨o, found⟩ := Option.isSome_iff_exists.mp indexed
      exact ⟨.object o, Vocabulary.term_name_eq_ok.mpr ⟨o, found, rfl⟩⟩
  | variableNamed x =>
    cases known : scope.lookup x with
    | none =>
      simp only [checkTerm, typeOf?, known] at clean
      exact absurd clean not_clean_error
    | some type =>
      have bound : x ∈ names := inside x (Option.isSome_iff_exists.mpr ⟨type, known⟩)
      exact ⟨.variableNamed x, Vocabulary.term_variableNamed_eq_ok.mpr ⟨bound, rfl⟩⟩

theorem clean_terms_of_clean {predicate : String} {position : Nat} {ts : List Term}
    {types : List (Option String)} (length : types.length = ts.length)
    (clean : Clean (d.checkArguments scope context predicate position ts types)) :
    ∀ t ∈ ts, Clean (d.checkTerm scope context t) := by
  induction ts generalizing types position with
  | nil => simp
  | cons t ts ih =>
    cases types with
    | nil => cases length
    | cons expected types =>
      rw [checkArguments, clean_append] at clean
      obtain ⟨first, rest⟩ := clean
      unfold checkArgument at first
      have term := (clean_append.mp first).1
      exact List.forall_mem_cons.mpr ⟨term, ih (Nat.succ.inj length) rest⟩

theorem declared_of_clean_atom (agree : d.Matches v) {a : Atom}
    (clean : Clean (d.checkAtom scope context a)) :
    (∃ signature, v.predicates.get? a.predicate = some signature ∧
      signature.arity = a.terms.length) ∧
    ∀ t ∈ a.terms, Clean (d.checkTerm scope context t) := by
  unfold checkAtom at clean
  split at clean
  · exact absurd clean not_clean_error
  · next types found =>
    obtain ⟨length, clean⟩ := clean_ite_error clean
    have arity := agree.predicates a.predicate
    rw [found, Option.map_some, eq_comm, Option.map_eq_some_iff] at arity
    obtain ⟨signature, declared, arity⟩ := arity
    exact ⟨⟨signature, declared, arity.trans length⟩, clean_terms_of_clean length clean⟩

theorem exists_atom_of_clean (agree : d.Matches v) (inside : Inside scope names) {a : Atom}
    (clean : Clean (d.checkAtom scope context a)) : ∃ b, v.atom names a = .ok b := by
  obtain ⟨declared, terms⟩ := declared_of_clean_atom agree clean
  obtain ⟨us, translated⟩ := exists_forall₂ fun t ht =>
    exists_term_of_clean agree inside (terms t ht)
  exact ⟨⟨a.predicate, us⟩, Vocabulary.atom_eq_ok.mpr ⟨declared, rfl, translated⟩⟩

theorem exists_proposition_of_clean (agree : d.Matches v) {a : Atom}
    (clean : Clean (d.checkAtom [] context a)) : ∃ p, v.proposition a = .ok p := by
  obtain ⟨declared, terms⟩ := declared_of_clean_atom agree clean
  have named : ∀ t ∈ a.terms, ∃ o n, t = .name n ∧ v.object n = .ok o := by
    intro t ht
    obtain ⟨u, translated⟩ := exists_term_of_clean agree inside_nil (terms t ht)
    cases t with
    | name n =>
      obtain ⟨o, found, -⟩ := Vocabulary.term_name_eq_ok.mp translated
      exact ⟨o, n, rfl, Vocabulary.object_eq_ok.mpr found⟩
    | variableNamed x =>
      obtain ⟨impossible, -⟩ := Vocabulary.term_variableNamed_eq_ok.mp translated
      cases impossible
  obtain ⟨os, objects⟩ := exists_forall₂ named
  refine ⟨⟨a.predicate, os⟩, ?_⟩
  rw [Vocabulary.proposition, Vocabulary.expectArity_bind_eq_ok]
  refine ⟨declared, bind_pure_eq_ok.mpr ⟨os, mapM_eq_ok.mpr (objects.imp ?_), rfl⟩⟩
  rintro _ o ⟨n, rfl, found⟩
  exact found

theorem clean_goals {gs : List Goal} (clean : Clean (d.checkGoals context scope gs)) :
    ∀ g ∈ gs, Clean (d.checkGoal context scope g) := by
  induction gs with
  | nil => simp
  | cons g gs ih =>
    rw [checkGoals, clean_append] at clean
    exact List.forall_mem_cons.mpr ⟨clean.1, ih clean.2⟩

theorem clean_effects {es : List Effect} (clean : Clean (d.checkEffects context scope es)) :
    ∀ e ∈ es, Clean (d.checkEffect context scope e) := by
  induction es with
  | nil => simp
  | cons e es ih =>
    rw [checkEffects, clean_append] at clean
    exact List.forall_mem_cons.mpr ⟨clean.1, ih clean.2⟩

/-- A goal in which the check finds no error can be translated. -/
theorem exists_formula_of_clean (agree : d.Matches v) (inside : Inside scope names) {g : Goal}
    (clean : Clean (d.checkGoal context scope g)) : ∃ f, v.formula names g = .ok f := by
  induction g using Goal.induction generalizing scope names with
  | atom a =>
    rw [checkGoal] at clean
    obtain ⟨b, hb⟩ := exists_atom_of_clean agree inside clean
    exact ⟨_, Vocabulary.formula_eq_ok.mpr ⟨b, hb, rfl⟩⟩
  | equal left right =>
    rw [checkGoal, clean_append] at clean
    obtain ⟨t, ht⟩ := exists_term_of_clean agree inside clean.1
    obtain ⟨u, hu⟩ := exists_term_of_clean agree inside clean.2
    exact ⟨_, Vocabulary.formula_eq_ok.mpr ⟨t, ht, u, hu, rfl⟩⟩
  | not g ih =>
    rw [checkGoal] at clean
    obtain ⟨f, hf⟩ := ih inside clean
    exact ⟨_, Vocabulary.formula_eq_ok.mpr ⟨f, hf, rfl⟩⟩
  | and gs ih =>
    rw [checkGoal] at clean
    obtain ⟨fs, hfs⟩ := exists_forall₂ fun g hg => ih g hg inside (clean_goals clean g hg)
    exact ⟨_, Vocabulary.formula_eq_ok.mpr ⟨fs, hfs, rfl⟩⟩
  | or gs ih =>
    rw [checkGoal] at clean
    obtain ⟨fs, hfs⟩ := exists_forall₂ fun g hg => ih g hg inside (clean_goals clean g hg)
    exact ⟨_, Vocabulary.formula_eq_ok.mpr ⟨fs, hfs, rfl⟩⟩
  | imply a b iha ihb =>
    rw [checkGoal, clean_append] at clean
    obtain ⟨f, hf⟩ := iha inside clean.1
    obtain ⟨f', hf'⟩ := ihb inside clean.2
    exact ⟨_, Vocabulary.formula_eq_ok.mpr ⟨f, hf, f', hf', rfl⟩⟩
  | forAll vs g ih =>
    rw [checkGoal, clean_append] at clean
    have typed := agree.typed_of_clean clean.1
    obtain ⟨f, hf⟩ := ih (inside.extend d vs) clean.2
    exact ⟨_, Vocabulary.formula_eq_ok.mpr ⟨typed, f, hf, rfl⟩⟩
  | forSome vs g ih =>
    rw [checkGoal, clean_append] at clean
    have typed := agree.typed_of_clean clean.1
    obtain ⟨f, hf⟩ := ih (inside.extend d vs) clean.2
    exact ⟨_, Vocabulary.formula_eq_ok.mpr ⟨typed, f, hf, rfl⟩⟩
  | unsupported feature => exact ⟨_, Vocabulary.formula_eq_ok.mpr rfl⟩

theorem exists_effects_of_clean (agree : d.Matches v) (inside : Inside scope names) {e : Effect}
    (clean : Clean (d.checkEffect context scope e)) : ∃ fs, v.effects names e = .ok fs := by
  induction e using Effect.induction generalizing scope names with
  | add a =>
    rw [checkEffect] at clean
    obtain ⟨b, hb⟩ := exists_atom_of_clean agree inside clean
    exact ⟨_, Vocabulary.effects_eq_ok.mpr ⟨b, hb, rfl⟩⟩
  | delete a =>
    rw [checkEffect] at clean
    obtain ⟨b, hb⟩ := exists_atom_of_clean agree inside clean
    exact ⟨_, Vocabulary.effects_eq_ok.mpr ⟨b, hb, rfl⟩⟩
  | and es ih =>
    rw [checkEffect] at clean
    obtain ⟨parts, hparts⟩ := exists_forall₂ fun e he => ih e he inside (clean_effects clean e he)
    exact ⟨_, Vocabulary.effects_eq_ok.mpr ⟨parts, hparts, rfl⟩⟩
  | when guard e ih =>
    rw [checkEffect, clean_append] at clean
    obtain ⟨f, hf⟩ := exists_formula_of_clean agree inside clean.1
    obtain ⟨part, hpart⟩ := ih inside clean.2
    exact ⟨_, Vocabulary.effects_eq_ok.mpr ⟨f, hf, part, hpart, rfl⟩⟩
  | forAll vs e ih =>
    rw [checkEffect, clean_append] at clean
    have typed := agree.typed_of_clean clean.1
    obtain ⟨part, hpart⟩ := ih (inside.extend d vs) clean.2
    exact ⟨_, Vocabulary.effects_eq_ok.mpr ⟨typed, part, hpart, rfl⟩⟩
  | unsupported feature => exact ⟨_, Vocabulary.effects_eq_ok.mpr rfl⟩

theorem clean_actions {before : List String} {as : List Action}
    (clean : Clean (d.checkActionsAfter before as)) : ∀ a ∈ as, ∃ context,
      Clean (d.checkVariables a.parameters context) ∧
        Clean (d.checkGoal context (d.extend a.parameters []) a.precondition) ∧
          Clean (d.checkEffect context (d.extend a.parameters []) a.effect) := by
  induction as generalizing before with
  | nil => simp
  | cons a as ih =>
    simp only [checkActionsAfter, clean_append] at clean
    obtain ⟨⟨⟨⟨-, binders⟩, precondition⟩, effect⟩, rest⟩ := clean
    exact List.forall_mem_cons.mpr ⟨⟨_, binders, precondition, effect⟩, ih rest⟩

theorem exists_action_of_clean (agree : d.Matches v) {before : List String} {as : List Action}
    (clean : Clean (d.checkActionsAfter before as)) : ∀ a ∈ as, ∃ b, v.action a = .ok b := by
  intro a ha
  obtain ⟨context, binders, precondition, effect⟩ := clean_actions clean a ha
  have typed := agree.typed_of_clean binders
  have inside := inside_nil.extend d a.parameters
  obtain ⟨f, hf⟩ := exists_formula_of_clean agree inside precondition
  obtain ⟨es, hes⟩ := exists_effects_of_clean agree inside effect
  exact ⟨_, Vocabulary.action_eq_ok.mpr ⟨typed, f, hf, es, hes, rfl⟩⟩

theorem exists_derivedRule_of_clean (agree : d.Matches v) {r : Derived}
    (clean : Clean (d.checkDerivedBody r)) : ∃ rule, v.derivedRule r = .ok rule := by
  rw [checkDerivedBody, clean_append] at clean
  have typed := agree.typed_of_clean clean.1
  obtain ⟨f, hf⟩ :=
    exists_formula_of_clean agree (inside_nil.extend d r.head.parameters) clean.2
  exact ⟨_, Vocabulary.derivedRule_eq_ok.mpr ⟨typed, f, hf, rfl⟩⟩

theorem clean_axioms {n : Nat} {as : List Axiom} (clean : Clean (d.checkAxiomsFrom n as)) :
    ∀ a ∈ as, ∃ context, Clean (d.checkVariables a.binders context) ∧
      Clean (d.checkGoal context (d.extend a.binders []) a.context) ∧
        ∃ head, a.implies = .atom head ∧
          Clean (d.checkAtom (d.extend a.binders []) context head) := by
  induction as generalizing n with
  | nil => simp
  | cons a as ih =>
    simp only [checkAxiomsFrom, clean_append] at clean
    obtain ⟨⟨⟨binders, body⟩, implied⟩, rest⟩ := clean
    refine List.forall_mem_cons.mpr ⟨⟨_, binders, body, ?_⟩, ih rest⟩
    split at implied
    · next head same => exact ⟨head, same, implied⟩
    · exact absurd implied not_clean_error

theorem exists_rule_of_clean (agree : d.Matches v) {n : Nat} {as : List Axiom}
    (clean : Clean (d.checkAxiomsFrom n as)) : ∀ a ∈ as, ∃ rule, v.rule a = .ok rule := by
  intro a ha
  obtain ⟨context, binders, body, b, same, implied⟩ := clean_axioms clean a ha
  have typed := agree.typed_of_clean binders
  have inside := inside_nil.extend d a.binders
  obtain ⟨f, hf⟩ := exists_formula_of_clean agree inside body
  obtain ⟨head, translated⟩ := exists_atom_of_clean agree inside implied
  have hhead := Vocabulary.ruleHead_eq_ok.mpr ⟨b, same, translated⟩
  exact ⟨_, Vocabulary.rule_eq_ok.mpr ⟨typed, f, hf, head, hhead, rfl⟩⟩

end Declarations
end Definition
end TypedPlanning
