import TypedPlanning.Resolution
import TypedPlanning.Proofs.Change
import TypedPlanning.Proofs.Meaning

/-! What the translation of a goal or an effect consists of, construct by construct. All that comes
out of it has its variables in scope, its objects indexed, and the constructs that were written. -/

namespace TypedPlanning
open Fallible

namespace TypeHierarchy

theorem get?_eq_some {h : TypeHierarchy} {t u : String} :
    h.get? t = some u ↔ t ∈ h.types ∧ u = t := by
  unfold get?
  split <;> simp_all [eq_comm]

end TypeHierarchy

def Parameter.of (d : Definition.TypedName) : Parameter := ⟨d.name, d.type⟩

namespace Vocabulary
variable {v : Vocabulary} {scope : List String}

theorem expectName_bind_eq_ok {α : Type} {name : String} {x : Except Error α} {a : α} :
    (expectName name >>= fun _ => x) = .ok a ↔ Text.isName name = true ∧ x = .ok a := by
  unfold expectName
  split <;> simp_all [resolveFault]

theorem type_eq_ok {name t : String} :
    v.type name = .ok t ↔ name ∈ v.objects.types.types ∧ t = name := by
  unfold type
  rw [← TypeHierarchy.get?_eq_some]
  cases v.objects.types.get? name <;> simp [resolveFault]

theorem object_eq_ok {name : String} {o : Object} :
    v.object name = .ok o ↔ v.objects.get? name = some o := by
  unfold object
  cases v.objects.get? name <;> simp [resolveFault]

theorem expectArity_bind_eq_ok {α : Type} {predicate : String} {n : Nat} {x : Except Error α}
    {a : α} : (v.expectArity predicate n >>= fun _ => x) = .ok a ↔
      (∃ signature, v.predicates.get? predicate = some signature ∧ signature.arity = n) ∧
        x = .ok a := by
  unfold expectArity
  cases v.predicates.get? predicate with
  | none => simp [resolveFault]
  | some signature =>
    by_cases same : signature.arity = n
    · simp [same]
    · simp [same, resolveFault]

theorem declaredObject_eq_ok {types : TypeHierarchy} {d : Definition.TypedName} {o : Object} :
    declaredObject types d = .ok o ↔
      (Text.isName d.name = true ∧ d.type ∈ types.types) ∧ o = Object.of d := by
  rw [declaredObject, expectName_bind_eq_ok, and_assoc]
  refine and_congr_right fun _ => ?_
  cases typed : types.get? d.type with
  | none =>
    have undeclared : d.type ∉ types.types := by simpa [TypeHierarchy.get?] using typed
    simp [resolveFault, undeclared]
  | some t =>
    obtain ⟨declared, rfl⟩ := TypeHierarchy.get?_eq_some.mp typed
    show Except.ok (Object.of d) = .ok o ↔ _
    simp [declared, eq_comm]

theorem parameters_eq_ok {ds : List Definition.TypedName} {ps : List Parameter} :
    v.parameters ds = .ok ps ↔
      (∀ d ∈ ds, d.type ∈ v.objects.types.types) ∧ ps = ds.map Parameter.of := by
  refine mapM_checked fun d p => ?_
  simp only [bind_pure_eq_ok, type_eq_ok]
  constructor
  · rintro ⟨t, ⟨declared, rfl⟩, rfl⟩
    exact ⟨declared, rfl⟩
  · rintro ⟨declared, rfl⟩
    exact ⟨d.type, ⟨declared, rfl⟩, rfl⟩

theorem term_variableNamed_eq_ok {x : String} {t : Term} :
    v.term scope (.variableNamed x) = .ok t ↔ x ∈ scope ∧ t = .variableNamed x := by
  rw [term]
  by_cases inside : x ∈ scope
  · simp [inside, eq_comm]
  · simp [inside, resolveFault]

theorem term_name_eq_ok {n : String} {t : Term} :
    v.term scope (.name n) = .ok t ↔ ∃ o, v.objects.get? n = some o ∧ t = .object o := by
  simp only [term, bind_pure_eq_ok, object_eq_ok]

theorem atom_eq_ok {a : Definition.Atom} {b : Atom} : v.atom scope a = .ok b ↔
    (∃ signature, v.predicates.get? a.predicate = some signature ∧
      signature.arity = a.terms.length) ∧
    b.predicate = a.predicate ∧
      List.Forall₂ (fun t u => v.term scope t = .ok u) a.terms b.terms := by
  rw [atom, expectArity_bind_eq_ok]
  refine and_congr_right fun _ => ?_
  simp only [bind_pure_eq_ok, mapM_eq_ok]
  constructor
  · rintro ⟨terms, translated, rfl⟩
    exact ⟨rfl, translated⟩
  · rintro ⟨same, translated⟩
    exact ⟨b.terms, translated, by rw [← same]⟩

theorem formulas_eq (gs : List Definition.Goal) :
    v.formulas scope gs = gs.mapM (v.formula scope) := by
  induction gs with
  | nil => rfl
  | cons g gs ih => rw [formulas, ih, List.mapM_cons]

theorem formula_eq_ok {g : Definition.Goal} {f : Formula} : v.formula scope g = .ok f ↔
    match g with
    | .atom a => ∃ b, v.atom scope a = .ok b ∧ f = .atom b
    | .equal left right => ∃ t, v.term scope left = .ok t ∧
        ∃ u, v.term scope right = .ok u ∧ f = .equal t u
    | .not g => ∃ h, v.formula scope g = .ok h ∧ f = .not h
    | .and gs => ∃ fs, List.Forall₂ (fun g f => v.formula scope g = .ok f) gs fs ∧ f = .and fs
    | .or gs => ∃ fs, List.Forall₂ (fun g f => v.formula scope g = .ok f) gs fs ∧ f = .or fs
    | .imply a b => ∃ h, v.formula scope a = .ok h ∧
        ∃ k, v.formula scope b = .ok k ∧ f = .imply h k
    | .forAll vs g => (∀ d ∈ vs, d.type ∈ v.objects.types.types) ∧
        ∃ h, v.formula (within (vs.map Parameter.of) scope) g = .ok h ∧
          f = .forAll (vs.map Parameter.of) h
    | .forSome vs g => (∀ d ∈ vs, d.type ∈ v.objects.types.types) ∧
        ∃ h, v.formula (within (vs.map Parameter.of) scope) g = .ok h ∧
          f = .forSome (vs.map Parameter.of) h
    | .unsupported feature => f = .unsupported feature := by
  cases g with
  | atom a => rw [formula, bind_pure_eq_ok]
  | equal left right => rw [formula, bind_eq_ok]; simp only [bind_pure_eq_ok]
  | not g => rw [formula, bind_pure_eq_ok]
  | and gs => rw [formula, bind_pure_eq_ok]; simp only [formulas_eq, mapM_eq_ok]
  | or gs => rw [formula, bind_pure_eq_ok]; simp only [formulas_eq, mapM_eq_ok]
  | imply a b => rw [formula, bind_eq_ok]; simp only [bind_pure_eq_ok]
  | forAll vs g =>
    rw [formula, bind_eq_ok]
    simp only [bind_pure_eq_ok, parameters_eq_ok, and_assoc, exists_and_left, exists_eq_left]
  | forSome vs g =>
    rw [formula, bind_eq_ok]
    simp only [bind_pure_eq_ok, parameters_eq_ok, and_assoc, exists_and_left, exists_eq_left]
  | unsupported feature => simp [formula, pure, Except.pure, eq_comm]

theorem effectsOfAll_eq_ok {es : List Definition.Effect} {fs : List Effect} :
    v.effectsOfAll scope es = .ok fs ↔
      ∃ parts, List.Forall₂ (fun e part => v.effects scope e = .ok part) es parts ∧
        fs = parts.flatten := by
  induction es generalizing fs with
  | nil => simp [effectsOfAll, pure, Except.pure, eq_comm]
  | cons e es ih =>
    rw [effectsOfAll, bind_eq_ok]
    simp only [bind_pure_eq_ok, ih, List.forall₂_cons_left_iff]
    constructor
    · rintro ⟨part, first, _, ⟨parts, rest, rfl⟩, rfl⟩
      exact ⟨part :: parts, ⟨part, parts, first, rest, rfl⟩, rfl⟩
    · rintro ⟨_, ⟨part, parts, first, rest, rfl⟩, rfl⟩
      exact ⟨part, first, _, ⟨parts, rest, rfl⟩, rfl⟩

theorem effects_eq_ok {e : Definition.Effect} {fs : List Effect} : v.effects scope e = .ok fs ↔
    match e with
    | .add a => ∃ b, v.atom scope a = .ok b ∧ fs = [.add b]
    | .delete a => ∃ b, v.atom scope a = .ok b ∧ fs = [.delete b]
    | .and es => ∃ parts, List.Forall₂ (fun e part => v.effects scope e = .ok part) es parts ∧
        fs = parts.flatten
    | .when guard e => ∃ f, v.formula scope guard = .ok f ∧
        ∃ part, v.effects scope e = .ok part ∧ fs = [.when f part]
    | .forAll vs e => (∀ d ∈ vs, d.type ∈ v.objects.types.types) ∧
        ∃ part, v.effects (within (vs.map Parameter.of) scope) e = .ok part ∧
          fs = [.forAll (vs.map Parameter.of) part]
    | .unsupported feature => fs = [.unsupported feature] := by
  cases e with
  | add a => rw [effects, bind_pure_eq_ok]
  | delete a => rw [effects, bind_pure_eq_ok]
  | and es => rw [effects, effectsOfAll_eq_ok]
  | when guard e => rw [effects, bind_eq_ok]; simp only [bind_pure_eq_ok]
  | forAll vs e =>
    rw [effects, bind_eq_ok]
    simp only [bind_pure_eq_ok, parameters_eq_ok, and_assoc, exists_and_left, exists_eq_left]
  | unsupported feature => simp [effects, pure, Except.pure, eq_comm]

theorem action_eq_ok {a : Definition.Action} {b : Action} : v.action a = .ok b ↔
    (∀ d ∈ a.parameters, d.type ∈ v.objects.types.types) ∧
      ∃ f, v.formula (within (a.parameters.map Parameter.of) []) a.precondition = .ok f ∧
        ∃ es, v.effects (within (a.parameters.map Parameter.of) []) a.effect = .ok es ∧
          b = ⟨a.name, a.parameters.map Parameter.of, f, es⟩ := by
  rw [action, bind_eq_ok]
  simp only [parameters_eq_ok, and_assoc, exists_and_left, exists_eq_left]
  rw [bind_eq_ok]
  simp only [bind_pure_eq_ok]

theorem derivedRule_eq_ok {d : Definition.Derived} {r : Rule} : v.derivedRule d = .ok r ↔
    (∀ x ∈ d.head.parameters, x.type ∈ v.objects.types.types) ∧
      ∃ f, v.formula (within (d.head.parameters.map Parameter.of) []) d.body = .ok f ∧
        r = ⟨d.head.parameters.map Parameter.of, f,
          ⟨d.head.name, d.head.parameters.map (.variableNamed ·.name)⟩⟩ := by
  rw [derivedRule, bind_eq_ok]
  simp only [bind_pure_eq_ok, parameters_eq_ok, and_assoc, exists_and_left, exists_eq_left,
    List.map_map]
  rfl

theorem ruleHead_eq_ok {g : Definition.Goal} {b : Atom} :
    v.ruleHead scope g = .ok b ↔ ∃ a, g = .atom a ∧ v.atom scope a = .ok b := by
  unfold ruleHead
  split <;> simp_all [resolveFault]

theorem rule_eq_ok {a : Definition.Axiom} {r : Rule} : v.rule a = .ok r ↔
    (∀ d ∈ a.binders, d.type ∈ v.objects.types.types) ∧
      ∃ f, v.formula (within (a.binders.map Parameter.of) []) a.context = .ok f ∧
        ∃ head, v.ruleHead (within (a.binders.map Parameter.of) []) a.implies = .ok head ∧
          r = ⟨a.binders.map Parameter.of, f, head⟩ := by
  rw [rule, bind_eq_ok]
  simp only [parameters_eq_ok, and_assoc, exists_and_left, exists_eq_left]
  rw [bind_eq_ok]
  simp only [bind_pure_eq_ok]

theorem free_subset_of_term {t : Definition.Term} {u : Term} (translated : v.term scope t = .ok u) :
    u.free ⊆ scope := by
  cases t with
  | name n =>
    obtain ⟨o, -, rfl⟩ := term_name_eq_ok.mp translated
    exact List.nil_subset _
  | variableNamed x =>
    obtain ⟨inside, rfl⟩ := term_variableNamed_eq_ok.mp translated
    exact List.cons_subset.mpr ⟨inside, List.nil_subset _⟩

theorem free_subset_of_atom {a : Definition.Atom} {b : Atom} (translated : v.atom scope a = .ok b) :
    b.free ⊆ scope := by
  obtain ⟨-, -, terms⟩ := atom_eq_ok.mp translated
  intro x hx
  obtain ⟨u, hu, free⟩ := List.mem_flatMap.mp hx
  obtain ⟨t, -, translated⟩ := exists_of_mem_right terms hu
  exact free_subset_of_term translated free

theorem filter_subset_of_within {parameters : List Parameter} {free : List String}
    (inside : free ⊆ within parameters scope) :
    free.filter (· ∉ parameters.map Parameter.variableName) ⊆ scope := by
  intro x hx
  obtain ⟨hfree, outside⟩ := List.mem_filter.mp hx
  obtain bound | outer := List.mem_append.mp (inside hfree)
  · exact absurd bound (of_decide_eq_true outside)
  · exact outer

theorem free_subset_of_formula {g : Definition.Goal} {f : Formula}
    (translated : v.formula scope g = .ok f) : f.free ⊆ scope := by
  have members {scope : List String} {gs : List Definition.Goal} {fs : List Formula}
      (translated : List.Forall₂ (fun g f => v.formula scope g = .ok f) gs fs)
      (ih : ∀ g ∈ gs, ∀ f, v.formula scope g = .ok f → f.free ⊆ scope) :
      Formula.freeIn fs ⊆ scope := by
    intro x hx
    obtain ⟨f, hf, free⟩ := Formula.mem_freeIn.mp hx
    obtain ⟨g, hg, translated⟩ := exists_of_mem_right translated hf
    exact ih g hg f translated free
  induction g using Definition.Goal.induction generalizing scope f with
  | atom a =>
    obtain ⟨b, hb, rfl⟩ := formula_eq_ok.mp translated
    exact free_subset_of_atom hb
  | equal left right =>
    obtain ⟨t, ht, u, hu, rfl⟩ := formula_eq_ok.mp translated
    exact List.append_subset.mpr ⟨free_subset_of_term ht, free_subset_of_term hu⟩
  | not g ih =>
    obtain ⟨f', hf, rfl⟩ := formula_eq_ok.mp translated
    rw [Formula.free]
    exact ih hf
  | and gs ih =>
    obtain ⟨fs, hfs, rfl⟩ := formula_eq_ok.mp translated
    rw [Formula.free]
    exact members hfs fun g hg f => ih g hg
  | or gs ih =>
    obtain ⟨fs, hfs, rfl⟩ := formula_eq_ok.mp translated
    rw [Formula.free]
    exact members hfs fun g hg f => ih g hg
  | imply a b iha ihb =>
    obtain ⟨f', hf, f'', hf', rfl⟩ := formula_eq_ok.mp translated
    simpa [Formula.imply, Formula.free, Formula.freeIn] using ⟨iha hf, ihb hf'⟩
  | forAll vs g ih =>
    obtain ⟨-, f', hf, rfl⟩ := formula_eq_ok.mp translated
    rw [Formula.free]
    exact filter_subset_of_within (ih hf)
  | forSome vs g ih =>
    obtain ⟨-, f', hf, rfl⟩ := formula_eq_ok.mp translated
    rw [Formula.free]
    exact filter_subset_of_within (ih hf)
  | unsupported feature =>
    obtain rfl := formula_eq_ok.mp translated
    exact List.nil_subset _

theorem free_subset_of_effects {e : Definition.Effect} {fs : List Effect}
    (translated : v.effects scope e = .ok fs) : Effect.freeIn fs ⊆ scope := by
  induction e using Definition.Effect.induction generalizing scope fs with
  | add a =>
    obtain ⟨b, hb, rfl⟩ := effects_eq_ok.mp translated
    simpa [Effect.freeIn, Effect.free] using free_subset_of_atom hb
  | delete a =>
    obtain ⟨b, hb, rfl⟩ := effects_eq_ok.mp translated
    simpa [Effect.freeIn, Effect.free] using free_subset_of_atom hb
  | and es ih =>
    obtain ⟨parts, hparts, rfl⟩ := effects_eq_ok.mp translated
    intro x hx
    obtain ⟨f, hf, free⟩ := Effect.mem_freeIn.mp hx
    obtain ⟨part, hpart, inPart⟩ := List.mem_flatten.mp hf
    obtain ⟨e, he, translated⟩ := exists_of_mem_right hparts hpart
    exact ih e he translated (Effect.mem_freeIn.mpr ⟨f, inPart, free⟩)
  | when guard e ih =>
    obtain ⟨f, hf, part, hpart, rfl⟩ := effects_eq_ok.mp translated
    simpa [Effect.freeIn, Effect.free] using ⟨free_subset_of_formula hf, ih hpart⟩
  | forAll vs e ih =>
    obtain ⟨-, part, hpart, rfl⟩ := effects_eq_ok.mp translated
    simpa [Effect.freeIn, Effect.free] using filter_subset_of_within (ih hpart)
  | unsupported feature =>
    obtain rfl := effects_eq_ok.mp translated
    exact List.nil_subset _

theorem features_of_formula {g : Definition.Goal} {f : Formula}
    (translated : v.formula scope g = .ok f) : f.features = g.features := by
  have members {scope : List String} {gs : List Definition.Goal} {fs : List Formula}
      (translated : List.Forall₂ (fun g f => v.formula scope g = .ok f) gs fs)
      (ih : ∀ g ∈ gs, ∀ f, v.formula scope g = .ok f → f.features = g.features) :
      Formula.featuresIn fs = Definition.Goal.featuresIn gs := by
    induction translated with
    | nil => rfl
    | cons first _ ih' =>
      obtain ⟨hfirst, hrest⟩ := List.forall_mem_cons.mp ih
      rw [Formula.featuresIn, Definition.Goal.featuresIn, hfirst _ first, ih' hrest]
  induction g using Definition.Goal.induction generalizing scope f with
  | atom a =>
    obtain ⟨b, -, rfl⟩ := formula_eq_ok.mp translated
    rfl
  | equal left right =>
    obtain ⟨t, -, u, -, rfl⟩ := formula_eq_ok.mp translated
    rfl
  | not g ih =>
    obtain ⟨f', hf, rfl⟩ := formula_eq_ok.mp translated
    rw [Formula.features, Definition.Goal.features, ih hf]
  | and gs ih =>
    obtain ⟨fs, hfs, rfl⟩ := formula_eq_ok.mp translated
    rw [Formula.features, Definition.Goal.features, members hfs fun g hg f => ih g hg]
  | or gs ih =>
    obtain ⟨fs, hfs, rfl⟩ := formula_eq_ok.mp translated
    rw [Formula.features, Definition.Goal.features, members hfs fun g hg f => ih g hg]
  | imply a b iha ihb =>
    obtain ⟨f', hf, f'', hf', rfl⟩ := formula_eq_ok.mp translated
    simp [Formula.imply, Formula.features, Formula.featuresIn, Definition.Goal.features, iha hf,
      ihb hf']
  | forAll vs g ih =>
    obtain ⟨-, f', hf, rfl⟩ := formula_eq_ok.mp translated
    rw [Formula.features, Definition.Goal.features, ih hf]
  | forSome vs g ih =>
    obtain ⟨-, f', hf, rfl⟩ := formula_eq_ok.mp translated
    rw [Formula.features, Definition.Goal.features, ih hf]
  | unsupported feature =>
    obtain rfl := formula_eq_ok.mp translated
    rfl

theorem features_of_effects {e : Definition.Effect} {fs : List Effect}
    (translated : v.effects scope e = .ok fs) : Effect.featuresIn fs = e.features := by
  induction e using Definition.Effect.induction generalizing scope fs with
  | add a =>
    obtain ⟨b, -, rfl⟩ := effects_eq_ok.mp translated
    rfl
  | delete a =>
    obtain ⟨b, -, rfl⟩ := effects_eq_ok.mp translated
    rfl
  | and es ih =>
    obtain ⟨parts, hparts, rfl⟩ := effects_eq_ok.mp translated
    rw [Effect.featuresIn_flatten, Definition.Effect.features]
    clear translated
    induction hparts with
    | nil => rfl
    | cons first _ ih' =>
      obtain ⟨hfirst, hrest⟩ := List.forall_mem_cons.mp ih
      rw [List.flatMap_cons, Definition.Effect.featuresIn, hfirst first, ih' hrest]
  | when guard e ih =>
    obtain ⟨f, hf, part, hpart, rfl⟩ := effects_eq_ok.mp translated
    simp [Effect.featuresIn, Effect.features, Definition.Effect.features, features_of_formula hf,
      ih hpart]
  | forAll vs e ih =>
    obtain ⟨-, part, hpart, rfl⟩ := effects_eq_ok.mp translated
    simp [Effect.featuresIn, Effect.features, Definition.Effect.features, ih hpart]
  | unsupported feature =>
    obtain rfl := effects_eq_ok.mp translated
    rfl

theorem closed_of_derivedRule {d : Definition.Derived} {r : Rule}
    (translated : v.derivedRule d = .ok r) :
    r.body.free ++ r.head.free ⊆ r.parameters.map Parameter.variableName ∧
      r.body.features = d.body.features := by
  obtain ⟨-, f, hf, rfl⟩ := derivedRule_eq_ok.mp translated
  have body := free_subset_of_formula hf
  rw [within, List.append_nil] at body
  refine ⟨List.append_subset.mpr ⟨body, fun x hx => ?_⟩, features_of_formula hf⟩
  obtain ⟨t, ht, free⟩ := List.mem_flatMap.mp hx
  obtain ⟨p, hp, rfl⟩ := List.mem_map.mp ht
  obtain rfl := List.mem_singleton.mp free
  exact List.mem_map.mpr ⟨Parameter.of p, List.mem_map_of_mem hp, rfl⟩

theorem closed_of_rule {a : Definition.Axiom} {r : Rule} (translated : v.rule a = .ok r) :
    r.body.free ++ r.head.free ⊆ r.parameters.map Parameter.variableName ∧
      r.body.features = a.context.features := by
  obtain ⟨-, f, hf, head, hhead, rfl⟩ := rule_eq_ok.mp translated
  obtain ⟨b, -, hb⟩ := ruleHead_eq_ok.mp hhead
  have body := free_subset_of_formula hf
  have head := free_subset_of_atom hb
  rw [within, List.append_nil] at body head
  exact ⟨List.append_subset.mpr ⟨body, head⟩, features_of_formula hf⟩

end Vocabulary
end TypedPlanning
