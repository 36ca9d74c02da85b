import TypedPlanning.Proofs.Construction
import TypedPlanning.Proofs.Hierarchy

/-! Translation preserves meaning. What is evaluated after the names have been looked up is what the
goals and effects say as they are written: the scope of the translation and the bindings of the
evaluation give each variable the same object, implications become disjunctions, and nested
conjunctions of effects are flattened without a change of what they do. -/

namespace TypedPlanning
open Fallible Evaluation

/-- The objects of the vocabulary and their types are those of the setting. -/
structure Vocabulary.Agrees (v : Vocabulary) (σ : Definition.Setting) : Prop where
  coherent : v.objects.Coherent
  get? : ∀ name, v.objects.get? name = σ.object? name
  isSubtype : ∀ {sub sup}, v.objects.types.isSubtype sub sup = true ↔
    Definition.Reaches σ.types sub sup

theorem Vocabulary.agrees_ofDefinitions {domain : Definition.Domain}
    {problem : Definition.Problem} {v : Vocabulary}
    (made : ofDefinitions domain problem = .ok v) : v.Agrees (.of domain problem) := by
  obtain ⟨types, hierarchy, -, sound, -⟩ := sound_ofDefinitions made
  have objects_eq := sound.objects_eq
  refine ⟨objects_eq ▸ ObjectTable.coherent_ofList _ _, fun name => ?_, ?_⟩
  · rw [objects_eq, ObjectTable.get?_ofList, List.find?_map]
    rfl
  · rw [objects_eq, ObjectTable.types_ofList]
    exact Definition.isSubtype_iff_reaches hierarchy

namespace Vocabulary
variable {v : Vocabulary} {σ : Definition.Setting} {scope : List String} {s : State}
  {g : Assignment}

theorem Agrees.admits_iff (agrees : v.Agrees σ) {vs : List Definition.TypedName}
    {os : List Object} : v.objects.Admits (vs.map Parameter.of) os ↔ σ.Admits vs os := by
  rw [ObjectTable.Admits, List.forall₂_map_right_iff, Definition.Setting.Admits]
  simp only [agrees.coherent.mem_objects_iff, agrees.get?, ObjectTable.satisfies,
    agrees.isSubtype, Parameter.of]

theorem get?_bindAll_of (g : Assignment) (vs : List Definition.TypedName) (os : List Object) :
    (g.bindAll (vs.map Parameter.of) os).get? = Definition.Environment.bind g.get? vs os := by
  induction vs generalizing g os with
  | nil => rfl
  | cons d vs ih =>
    cases os with
    | nil => rfl
    | cons o os =>
      have step : (g.bind d.name o).get? = Function.update g.get? d.name (some o) := by
        funext x
        rw [Assignment.get?_bind, Function.update_apply]
      rw [List.map_cons, Assignment.bindAll_cons, ih, Definition.Environment.bind,
        Definition.Environment.bind, List.zip_cons_cons, List.foldl_cons, ← step]
      rfl

theorem Agrees.value?_eq (agrees : v.Agrees σ) {t : Definition.Term} {u : Term}
    (translated : v.term scope t = .ok u) : u.value? g = t.value? σ g.get? := by
  cases t with
  | name n =>
    obtain ⟨o, found, rfl⟩ := term_name_eq_ok.mp translated
    rw [Definition.Term.value?, ← agrees.get?, found, Term.value?]
  | variableNamed x =>
    obtain ⟨-, rfl⟩ := term_variableNamed_eq_ok.mp translated
    rfl

theorem Agrees.denotes_iff (agrees : v.Agrees σ) {a : Definition.Atom} {b : Atom}
    (translated : v.atom scope a = .ok b) {p : Fact} :
    b.Denotes g p ↔ a.Denotes σ g.get? p := by
  obtain ⟨-, same, terms⟩ := atom_eq_ok.mp translated
  rw [Atom.Denotes, Definition.Atom.Denotes, same]
  refine and_congr_right fun _ => forall₂_iff_of_forall₂ terms fun t u first o => ?_
  rw [agrees.value?_eq first]

theorem Agrees.denotes_of_proposition (agrees : v.Agrees σ) {a : Definition.Atom} {p : Fact}
    (translated : v.proposition a = .ok p) (env : Definition.Environment) :
    a.Denotes σ env p := by
  rw [proposition, expectArity_bind_eq_ok] at translated
  obtain ⟨arguments, terms, rfl⟩ := bind_pure_eq_ok.mp translated.2
  refine ⟨rfl, (mapM_eq_ok.mp terms).imp fun t o first => ?_⟩
  cases t with
  | name n => exact (agrees.get? n).symm.trans (object_eq_ok.mp first)
  | variableNamed x => cases first

/-- A translated formula is true exactly where the goal holds. -/
theorem Agrees.satisfied_iff (agrees : v.Agrees σ) {c : Definition.Goal} {f : Formula}
    (translated : v.formula scope c = .ok f) :
    f.Satisfied ⟨v.objects, s⟩ g ↔ c.Holds σ s g.get? := by
  induction c using Definition.Goal.induction generalizing scope f g with
  | atom a =>
    obtain ⟨b, hb, rfl⟩ := formula_eq_ok.mp translated
    simp only [Formula.Satisfied, Definition.Goal.Holds, agrees.denotes_iff hb]
  | equal left right =>
    obtain ⟨t, ht, u, hu, rfl⟩ := formula_eq_ok.mp translated
    simp only [Formula.Satisfied, Definition.Goal.Holds, agrees.value?_eq ht, agrees.value?_eq hu]
  | not c ih =>
    obtain ⟨f', hf, rfl⟩ := formula_eq_ok.mp translated
    rw [Formula.Satisfied, Definition.Goal.Holds, ih hf]
  | and cs ih =>
    obtain ⟨fs, hfs, rfl⟩ := formula_eq_ok.mp translated
    rw [Formula.satisfied_and, Definition.Goal.holds_and]
    exact (forall_mem_iff_of_forall₂ hfs fun c hc f first => (ih c hc first).symm).symm
  | or cs ih =>
    obtain ⟨fs, hfs, rfl⟩ := formula_eq_ok.mp translated
    rw [Formula.satisfied_or, Definition.Goal.holds_or]
    exact (exists_mem_iff_of_forall₂ hfs fun c hc f first => (ih c hc first).symm).symm
  | imply a b iha ihb =>
    obtain ⟨f', hf, f'', hf', rfl⟩ := formula_eq_ok.mp translated
    rw [Formula.imply, Formula.satisfied_or, Definition.Goal.Holds, ← iha hf, ← ihb hf']
    simp [Formula.Satisfied, imp_iff_not_or]
  | forAll vs c ih =>
    obtain ⟨-, f', hf, rfl⟩ := formula_eq_ok.mp translated
    simp only [Formula.Satisfied, Definition.Goal.Holds, agrees.admits_iff, ih hf,
      get?_bindAll_of]
  | forSome vs c ih =>
    obtain ⟨-, f', hf, rfl⟩ := formula_eq_ok.mp translated
    simp only [Formula.Satisfied, Definition.Goal.Holds, agrees.admits_iff, ih hf,
      get?_bindAll_of]
  | unsupported feature =>
    obtain rfl := formula_eq_ok.mp translated
    rfl

/-- The translated effects make the change that the effect makes as it is written. -/
theorem Agrees.changeIn_eq (agrees : v.Agrees σ) {e : Definition.Effect} {fs : List Effect}
    (translated : v.effects scope e = .ok fs) :
    Effect.changeIn ⟨v.objects, s⟩ fs g = e.change σ s g.get? := by
  induction e using Definition.Effect.induction generalizing scope fs g with
  | add a =>
    obtain ⟨b, hb, rfl⟩ := effects_eq_ok.mp translated
    simp [Effect.changeIn, Effect.change, Definition.Effect.change, agrees.denotes_iff hb]
  | delete a =>
    obtain ⟨b, hb, rfl⟩ := effects_eq_ok.mp translated
    simp [Effect.changeIn, Effect.change, Definition.Effect.change, agrees.denotes_iff hb]
  | and es ih =>
    obtain ⟨parts, hparts, rfl⟩ := effects_eq_ok.mp translated
    rw [Effect.changeIn_flatten, Definition.Effect.change, Definition.Effect.changeIn_eq_iSup]
    apply le_antisymm
    · refine iSup₂_le fun part hpart => ?_
      obtain ⟨e, he, first⟩ := exists_of_mem_right hparts hpart
      exact le_iSup₂_of_le e he (ih e he first).le
    · refine iSup₂_le fun e he => ?_
      obtain ⟨part, hpart, first⟩ := exists_of_mem_left hparts he
      exact le_iSup₂_of_le part hpart (ih e he first).ge
  | when guard e ih =>
    obtain ⟨f, hf, part, hpart, rfl⟩ := effects_eq_ok.mp translated
    simp [Effect.changeIn, Effect.change, Definition.Effect.change, agrees.satisfied_iff hf,
      ih hpart]
  | forAll vs e ih =>
    obtain ⟨-, part, hpart, rfl⟩ := effects_eq_ok.mp translated
    simp [Effect.changeIn, Effect.change, Definition.Effect.change, agrees.admits_iff, ih hpart,
      get?_bindAll_of]
  | unsupported feature =>
    obtain rfl := effects_eq_ok.mp translated
    simp [Effect.changeIn, Effect.change, Definition.Effect.change]

theorem bound_of_subset_within {parameters : List Parameter} {arguments : List Object}
    (fits : arguments.length = parameters.length) {free : List String}
    (inside : free ⊆ within parameters []) :
    ∀ x ∈ free, (Assignment.ofArguments parameters arguments).get? x ≠ none := by
  intro x hx
  obtain named | none := List.mem_append.mp (inside hx)
  · exact Assignment.get?_ofArguments_ne_none fits named
  · cases none

theorem Agrees.exists_eval_eq (agrees : v.Agrees σ) {c : Definition.Goal} {f : Formula}
    (translated : v.formula scope c = .ok f) (decidable : c.features = [])
    (bound : ∀ x ∈ f.free, g.get? x ≠ none) :
    ∃ b, (f.eval ⟨v.objects, s⟩).outcome g = .ok b ∧ (b = true ↔ c.Holds σ s g.get?) := by
  have features := (features_of_formula translated).trans decidable
  obtain ⟨b, answer, truth⟩ := Formula.exists_eval_eq (w := ⟨v.objects, s⟩) agrees.coherent
    bound features
  exact ⟨b, answer, truth.trans (agrees.satisfied_iff translated)⟩

theorem Agrees.exists_ofEffects_eq (agrees : v.Agrees σ) {e : Definition.Effect} {fs : List Effect}
    (translated : v.effects scope e = .ok fs) (decidable : e.features = [])
    (bound : ∀ x ∈ Effect.freeIn fs, g.get? x ≠ none) :
    ∃ d, (Delta.ofEffects ⟨v.objects, s⟩ fs).outcome g = .ok d ∧ d.sets = e.change σ s g.get? := by
  have features := (features_of_effects translated).trans decidable
  obtain ⟨d, gathered, sets⟩ := Delta.exists_ofEffects_eq (w := ⟨v.objects, s⟩) agrees.coherent
    bound features
  exact ⟨d, gathered, sets.trans (agrees.changeIn_eq translated)⟩

end Vocabulary

namespace Problem
variable {p : Problem} {domain : Definition.Domain} {problem : Definition.Problem}

/-- The goal, the preconditions and the effects of a problem mean what its definitions say. An
action is the last one written under its name. -/
theorem queries_eq_meaning (built : ofDefinitions domain problem = .ok p) (s : State) :
    (problem.goal.features = [] → ∃ b, p.isGoal s = .ok b ∧
      (b = true ↔ problem.goal.Holds (.of domain problem) s .empty)) ∧
    ∀ a ∈ p.actions.toList, ∃ d, domain.actions.reverse.find? (·.name == a.name) = some d ∧
      ∀ arguments g, a.assign p.objects arguments = .ok g →
        (d.precondition.features = [] → ∃ b, a.isApplicable p.objects s arguments = .ok b ∧
          (b = true ↔ d.precondition.Holds (.of domain problem) s
            (.bind .empty d.parameters arguments))) ∧
        (d.effect.features = [] → ∃ change, a.delta p.objects s arguments = .ok change ∧
          change.sets = d.effect.change (.of domain problem) s
            (.bind .empty d.parameters arguments)) := by
  obtain ⟨v, made⟩ := madeFrom_of_ofDefinitions built
  have agrees := Vocabulary.agrees_ofDefinitions made.vocabulary
  rw [made.objects]
  refine ⟨fun decidable => ?_, fun a ha => ?_⟩
  · rw [isGoal, made.objects]
    have closed := Vocabulary.free_subset_of_formula made.goal
    exact agrees.exists_eval_eq made.goal decidable fun x hx => nomatch closed hx
  · have found := made.coherent_actions.mem_toList_iff.mp ha
    obtain ⟨d, last, translated⟩ := made.action_of_get? found
    refine ⟨d, last, fun arguments g assigned => ?_⟩
    obtain ⟨-, f, hf, es, hes, rfl⟩ := Vocabulary.action_eq_ok.mp translated
    obtain ⟨fits, rfl⟩ := Action.assign_eq_ok assigned
    have environment : Definition.Environment.bind .empty d.parameters arguments =
        (Assignment.ofArguments (d.parameters.map Parameter.of) arguments).get? :=
      (Vocabulary.get?_bindAll_of .empty d.parameters arguments).symm
    rw [Action.isApplicable, Action.delta, assigned, environment]
    constructor
    · intro decidable
      refine agrees.exists_eval_eq hf decidable ?_
      exact Vocabulary.bound_of_subset_within fits (Vocabulary.free_subset_of_formula hf)
    · intro decidable
      refine agrees.exists_ofEffects_eq hes decidable ?_
      exact Vocabulary.bound_of_subset_within fits (Vocabulary.free_subset_of_effects hes)

theorem queries_eq_meaning_lamps : ∃ p, ofDefinitions lampDomain lampProblem = .ok p ∧
    (∃ b, p.isGoal p.initial = .ok b ∧
      (b = true ↔ lampProblem.goal.Holds (.of lampDomain lampProblem) p.initial .empty)) ∧
    ∃ a ∈ p.actions.toList, ∃ d ∈ lampDomain.actions,
      (∃ b, a.isApplicable p.objects p.initial [⟨"left", "switch"⟩] = .ok b ∧
        (b = true ↔ d.precondition.Holds (.of lampDomain lampProblem) p.initial
          (.bind .empty d.parameters [⟨"left", "switch"⟩]))) ∧
      ∃ change, a.delta p.objects p.initial [⟨"left", "switch"⟩] = .ok change ∧
        change.sets = d.effect.change (.of lampDomain lampProblem) p.initial
          (.bind .empty d.parameters [⟨"left", "switch"⟩]) := by
  have built : ∃ p, ofDefinitions lampDomain lampProblem = .ok p ∧ p.actions.toList.any (fun a =>
      (a.assign p.objects [⟨"left", "switch"⟩]).toOption.isSome) = true := by
    refine exists_ok_and ?_
    decide +kernel
  obtain ⟨p, built, accepted⟩ := built
  obtain ⟨a, ha, accepted⟩ := List.any_eq_true.mp accepted
  obtain ⟨goal, actions⟩ := queries_eq_meaning built p.initial
  obtain ⟨d, last, meaning⟩ := actions a ha
  have hd : d ∈ lampDomain.actions := List.mem_reverse.mp (List.mem_of_find?_eq_some last)
  cases assigned : a.assign p.objects [⟨"left", "switch"⟩] with
  | error e =>
    rw [assigned] at accepted
    cases accepted
  | ok g =>
    obtain ⟨precondition, effect⟩ := meaning _ g assigned
    have decidable : d.precondition.features = [] ∧ d.effect.features = [] := by
      obtain rfl := List.mem_singleton.mp hd
      decide
    exact ⟨p, built, goal (by decide), a, ha, d, hd, precondition decidable.1, effect decidable.2⟩

end Problem
end TypedPlanning
