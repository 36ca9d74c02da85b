import TypedPlanning.Proofs.ObjectOrder

/-! The order of declarations. Types, constants, objects and initial facts may be given in any order:
the problem that is made of them answers every question in the same way, and refuses what it refuses
for the same reasons. -/

namespace TypedPlanning
open Fallible

namespace Vocabulary

structure Reordered (v v' : Vocabulary) : Prop where
  objects : v.objects.Reordered v'.objects
  predicates : v'.predicates = v.predicates

variable {v v' : Vocabulary}

theorem formulas_of_forall {gs : List Definition.Goal}
    (each : ∀ g ∈ gs, ∀ scope, v'.formula scope g = v.formula scope g) (scope : List String) :
    v'.formulas scope gs = v.formulas scope gs := by
  induction gs with
  | nil => rfl
  | cons g gs ih =>
    obtain ⟨first, rest⟩ := List.forall_mem_cons.mp each
    simp only [formulas, first, ih rest]

theorem effectsOfAll_of_forall {es : List Definition.Effect}
    (each : ∀ e ∈ es, ∀ scope, v'.effects scope e = v.effects scope e) (scope : List String) :
    v'.effectsOfAll scope es = v.effectsOfAll scope es := by
  induction es with
  | nil => rfl
  | cons e es ih =>
    obtain ⟨first, rest⟩ := List.forall_mem_cons.mp each
    simp only [effectsOfAll, first, ih rest]

namespace Reordered

variable (same : v.Reordered v')
include same

theorem type : v'.type = v.type := by
  funext name
  simp only [Vocabulary.type, same.objects.type]

theorem parameters : v'.parameters = v.parameters := by
  funext ds
  simp only [Vocabulary.parameters, same.type]

theorem object : v'.object = v.object := by
  funext name
  simp only [Vocabulary.object, same.objects.get?]

theorem term : v'.term = v.term := by
  funext scope t
  cases t <;> simp only [Vocabulary.term, same.object]

theorem expectArity : v'.expectArity = v.expectArity := by
  funext predicate found
  simp only [Vocabulary.expectArity, same.predicates]

theorem atom : v'.atom = v.atom := by
  funext scope a
  simp only [Vocabulary.atom, same.expectArity, same.term]

theorem proposition : v'.proposition = v.proposition := by
  funext a
  simp only [Vocabulary.proposition, same.expectArity, same.object]

theorem formula : v'.formula = v.formula := by
  funext scope g
  induction g using Definition.Goal.induction generalizing scope with
  | atom a => simp only [Vocabulary.formula, same.atom]
  | equal left right => simp only [Vocabulary.formula, same.term]
  | not g ih => simp only [Vocabulary.formula, ih]
  | and gs ih => simp only [Vocabulary.formula, formulas_of_forall ih]
  | or gs ih => simp only [Vocabulary.formula, formulas_of_forall ih]
  | imply a b iha ihb => simp only [Vocabulary.formula, iha, ihb]
  | forAll vs g ih => simp only [Vocabulary.formula, same.parameters, ih]
  | forSome vs g ih => simp only [Vocabulary.formula, same.parameters, ih]
  | unsupported feature => rfl

theorem effects : v'.effects = v.effects := by
  funext scope e
  induction e using Definition.Effect.induction generalizing scope with
  | add a => simp only [Vocabulary.effects, same.atom]
  | delete a => simp only [Vocabulary.effects, same.atom]
  | and es ih => simp only [Vocabulary.effects, effectsOfAll_of_forall ih]
  | when guard e ih => simp only [Vocabulary.effects, same.formula, ih]
  | forAll vs e ih => simp only [Vocabulary.effects, same.parameters, ih]
  | unsupported feature => rfl

theorem action : v'.action = v.action := by
  funext a
  simp only [Vocabulary.action, same.parameters, same.formula, same.effects]

theorem derivedRule : v'.derivedRule = v.derivedRule := by
  funext d
  simp only [Vocabulary.derivedRule, same.parameters, same.formula]

theorem ruleHead : v'.ruleHead = v.ruleHead := by
  funext scope g
  unfold Vocabulary.ruleHead
  simp only [same.atom]

theorem rule : v'.rule = v.rule := by
  funext a
  simp only [Vocabulary.rule, same.parameters, same.formula, same.ruleHead]

theorem signature : v'.signature = v.signature := by
  funext p
  simp only [Vocabulary.signature, same.type]

theorem declarePredicate (p : Definition.Predicate) :
    Agree Reordered (v.declarePredicate p) (v'.declarePredicate p) := by
  rw [Vocabulary.declarePredicate, Vocabulary.declarePredicate, same.signature, same.predicates]
  cases expectName p.name with
  | error e => exact .error e
  | ok _ =>
    cases v.signature p with
    | error e => exact .error e
    | ok signature => exact .ok ⟨same.objects, rfl⟩

theorem declareDerived (d : Definition.Derived) :
    Agree Reordered (v.declareDerived d) (v'.declareDerived d) := by
  cases known : v.predicates.contains d.head.name with
  | true =>
    have known' : v'.predicates.contains d.head.name = true := by rw [same.predicates, known]
    rw [Vocabulary.declareDerived, Vocabulary.declareDerived, if_pos known, if_pos known']
    cases expectName d.head.name with
    | error e => exact .error e
    | ok _ => exact .ok same
  | false =>
    have known' : v'.predicates.contains d.head.name = false := by rw [same.predicates, known]
    rw [declareDerived_of_not_contains known, declareDerived_of_not_contains known']
    exact same.declarePredicate d.head

end Reordered

variable {domain : Definition.Domain} {problem : Definition.Problem}
  {types constants objects : List Definition.TypedName} {initial : List Definition.Atom}

/-- A vocabulary can be made of the same declarations in another order, and means the same. -/
theorem exists_ofDefinitions_of_perm
    (distinct : ((domain.constants ++ problem.objects).map Definition.TypedName.name).Nodup)
    (htypes : types.Perm domain.types) (hconstants : constants.Perm domain.constants)
    (hobjects : objects.Perm problem.objects) (made : ofDefinitions domain problem = .ok v) :
    ∃ v', ofDefinitions { domain with types, constants } { problem with objects, initial } = .ok v' ∧
      v.Reordered v' := by
  obtain ⟨hierarchy, typed, checked, v₁, predicates, derived⟩ := ofDefinitions_eq_ok.mp made
  obtain ⟨hierarchy', typed', types_iff, below⟩ :=
    Definition.exists_typeHierarchy_of_same (fun d => htypes.mem_iff) typed
  have perm : (constants ++ objects).Perm (domain.constants ++ problem.objects) :=
    hconstants.append hobjects
  have checked' (d : Definition.TypedName) (hd : d ∈ constants ++ objects) :
      Text.isName d.name = true ∧ d.type ∈ hierarchy'.types := by
    rw [types_iff]
    exact checked d (perm.mem_iff.mp hd)
  have start : (ofObjects hierarchy (domain.constants ++ problem.objects)).Reordered
      (ofObjects hierarchy' (constants ++ objects)) := by
    refine ⟨ObjectTable.reordered_ofList (Definition.made_typeHierarchy typed)
      (Definition.made_typeHierarchy typed') types_iff below ?_ (perm.map _), rfl⟩
    rwa [List.map_map]
  obtain ⟨v₁', predicates', middle⟩ :=
    (agree_foldlM (fun v v' p same => Reordered.declarePredicate same p) start).exists_ok predicates
  obtain ⟨v', derived', same⟩ :=
    (agree_foldlM (fun v v' d same => Reordered.declareDerived same d) middle).exists_ok derived
  exact ⟨v', ofDefinitions_eq_ok.mpr ⟨hierarchy', typed', checked', v₁', predicates', derived'⟩, same⟩

end Vocabulary

namespace Problem
variable {v : Vocabulary} {p p' : Problem} {domain : Definition.Domain}
  {problem : Definition.Problem} {s : State} {a : Action} {os : List Object}

/-- Both problems give the same answers, and refuse to answer for the same reasons. The applicable
actions may be listed in another order. -/
structure AnswersAlike (p p' : Problem) : Prop where
  initial : p'.initial.texts = p.initial.texts
  isGoal : ∀ s, p'.isGoalOnTexts s = p.isGoalOnTexts s
  isApplicable : ∀ s call, p'.isApplicableOnTexts s call = p.isApplicableOnTexts s call
  next : ∀ s call, p'.nextOnTexts s call = p.nextOnTexts s call
  isPlan : ∀ calls, p'.isPlan calls = p.isPlan calls
  isPlanText : ∀ plan, p'.isPlanText plan = p.isPlanText plan
  applicableActions : ∀ s, Agree (fun found found' => ∀ text, text ∈ found' ↔ text ∈ found)
    (p.applicableActionsOnTexts s) (p'.applicableActionsOnTexts s)

structure Reordered (p p' : Problem) : Prop where
  objects : p.objects.Reordered p'.objects
  predicates : p'.predicates = p.predicates
  actions : p'.actions = p.actions
  rules : p'.rules = p.rules
  initial : p'.initial = p.initial
  goal : p'.goal = p.goal

namespace Reordered

variable (same : p.Reordered p')
include same

theorem arguments : p'.arguments = p.arguments := by
  funext call arity
  have object : p'.object = p.object := by
    funext name
    simp only [Problem.object, same.objects.get?]
  simp only [Problem.arguments, object]

theorem interpret : p'.interpret = p.interpret := by
  funext call
  simp only [Problem.interpret, same.actions, same.arguments]

theorem readCall : p'.readCall = p.readCall := by
  funext text
  simp only [Problem.readCall, same.interpret]

theorem readTexts : p'.readTexts = p.readTexts := by
  funext s
  have readFact : p'.readFact = p.readFact := by
    funext text
    simp only [Problem.readFact, same.predicates, same.arguments]
  simp only [Problem.readTexts, readState, readFact]

variable (made : MadeFrom domain problem v p)
include made

theorem isGoal : p'.isGoal s = p.isGoal s := by
  rw [Problem.isGoal, Problem.isGoal, same.goal]
  refine Formula.outcome_eval_reordered same.objects fun x hx => ?_
  rw [made.closed_goal] at hx
  cases hx

theorem close : p'.close = p.close := by
  rw [Problem.close, Problem.close, same.rules]
  exact Rule.close_reordered (fun r hr => (made.ready r hr).bound) same.objects

theorem apply (ha : a ∈ p.actions.toList) : p'.apply s a os = p.apply s a os := by
  have closed : p'.closed = p.closed := by
    funext s
    simp only [Problem.closed, same.close made]
  rw [Problem.apply, Problem.apply, (made.closed_action ha).apply_reordered same.objects, closed]

theorem update (ha : a ∈ p.actions.toList) : p'.update a os = p.update a os := by
  rw [Problem.update, Problem.update, (made.closed_action ha).update_reordered same.objects,
    same.close made]

theorem readCall_bind {α : Type} {query query' : Action × List Object → Except Error α}
    (alike : ∀ a ∈ p.actions.toList, ∀ os, query' (a, os) = query (a, os))
    (call : String) : p'.readCall call >>= query' = p.readCall call >>= query := by
  rw [same.readCall]
  cases read : p.readCall call with
  | error e => rfl
  | ok found => exact alike _ (made.mem_actions_of_readCall read) _

theorem isApplicable (call : String) : p'.isApplicable s call = p.isApplicable s call :=
  same.readCall_bind made (fun _ ha _ =>
    (made.closed_action ha).isApplicable_reordered same.objects) call

theorem next (call : String) : p'.next s call = p.next s call :=
  same.readCall_bind made (fun _ ha _ => same.apply made ha) call

theorem run (calls : List (Except Error Text.Call)) : p'.run s calls = p.run s calls := by
  induction calls generalizing s with
  | nil => exact same.isGoal made
  | cons call calls ih =>
    rw [Problem.run, Problem.run, same.interpret]
    cases call with
    | error e => rfl
    | ok c =>
      cases found : p.interpret c with
      | error e => simp only [ok_bind, found, error_bind]
      | ok pair =>
        have ha := made.mem_actions_of_interpret found
        simp only [ok_bind, found, (made.closed_action ha).isApplicable_reordered same.objects,
          same.update made ha, ih]

/-- Every tuple of candidates is asked for in both problems, and where the precondition cannot be
decided it is the same construct that is found first. -/
theorem applicableArguments (ha : a ∈ p.actions.toList) :
    Agree (fun found found' => ∀ os, os ∈ found' ↔ os ∈ found)
      (p.applicableArguments s a) (p'.applicableArguments s a) := by
  have closed := made.closed_action ha
  have asked (os : List Object) : a.isApplicable p'.objects s os = a.isApplicable p.objects s os :=
    closed.isApplicable_reordered same.objects
  have returns : (∃ found, p'.applicableArguments s a = .ok found) ↔
      ∃ found, p.applicableArguments s a = .ok found := by
    simp only [applicableArguments_eq_ok, same.objects.mem_tuples_iff, asked, exists_and_left,
      exists_eq, and_true]
  -- The two go through the tuples in different orders, so failures are compared by their cause.
  cases first : p.applicableArguments s a with
  | ok found =>
    obtain ⟨found', second⟩ := returns.mpr ⟨found, first⟩
    rw [second]
    obtain ⟨-, rfl⟩ := applicableArguments_eq_ok.mp first
    obtain ⟨-, rfl⟩ := applicableArguments_eq_ok.mp second
    refine .ok fun os => ?_
    rw [List.mem_filter, List.mem_filter, same.objects.mem_tuples_iff, asked]
  | error e =>
    cases second : p'.applicableArguments s a with
    | ok found' =>
      obtain ⟨found, first'⟩ := returns.mp ⟨found', second⟩
      rw [first] at first'
      cases first'
    | error e' =>
      obtain ⟨feature, found, rfl⟩ :=
        failsOnly_applicableArguments_first same.objects.coherent closed e first
      obtain ⟨feature', found', rfl⟩ :=
        failsOnly_applicableArguments_first same.objects.coherent' closed e' second
      obtain rfl := Option.some.inj (found.symm.trans found')
      exact .error _

theorem applicableActions :
    Agree (fun found found' => ∀ x, x ∈ found' ↔ x ∈ found)
      (p.applicableActions s) (p'.applicableActions s) := by
  have groups : Agree
      (List.Forall₂ fun found found' : List GroundAction => ∀ x, x ∈ found' ↔ x ∈ found)
      (p.actions.toList.mapM fun a =>
        return (← p.applicableArguments s a).map (GroundAction.mk a.name))
      (p.actions.toList.mapM fun a =>
        return (← p'.applicableArguments s a).map (GroundAction.mk a.name)) := by
    refine agree_mapM fun a ha => (same.applicableArguments made ha).bind fun found found' iff => ?_
    refine .ok fun x => ?_
    simp only [List.mem_map, iff]
  rw [Problem.applicableActions, Problem.applicableActions, same.actions]
  refine groups.bind fun groups groups' related => .ok fun x => ?_
  rw [List.mem_flatten, List.mem_flatten]
  exact (exists_mem_iff_of_forall₂ related fun found _ found' iff => (iff x).symm).symm

theorem answersAlike : p.AnswersAlike p' := by
  constructor
  · rw [same.initial]
  · intro s
    simp only [isGoalOnTexts, same.readTexts, same.isGoal made]
  · intro s call
    simp only [isApplicableOnTexts, same.readTexts, same.isApplicable made]
  · intro s call
    simp only [nextOnTexts, same.readTexts, same.next made]
  · intro calls
    rw [isPlan, isPlan, same.initial, same.run made]
  · intro plan
    simp only [isPlanText, same.initial, same.run made]
  · intro s
    rw [applicableActionsOnTexts, applicableActionsOnTexts, same.readTexts]
    cases p.readTexts s with
    | error e => exact .error e
    | ok s =>
      refine (same.applicableActions made).bind fun found found' iff => .ok fun text => ?_
      simp only [List.mem_map, iff]

end Reordered

variable {types constants objects : List Definition.TypedName} {initial : List Definition.Atom}

theorem exists_ofDefinitions_of_perm
    (distinct : ((domain.constants ++ problem.objects).map Definition.TypedName.name).Nodup)
    (htypes : types.Perm domain.types) (hconstants : constants.Perm domain.constants)
    (hobjects : objects.Perm problem.objects) (hinitial : initial.Perm problem.initial)
    (built : ofDefinitions domain problem = .ok p) :
    ∃ p', ofDefinitions { domain with types, constants } { problem with objects, initial } = .ok p' ∧
      p.AnswersAlike p' := by
  obtain ⟨v, made⟩ := madeFrom_of_ofDefinitions built
  have named : ¬ domain.name ≠ problem.domainName := by
    intro other
    rw [ofDefinitions_eq, if_pos other] at built
    cases built
  obtain ⟨v', vocabulary, same⟩ : ∃ v', Vocabulary.ofDefinitions { domain with types, constants }
      { problem with objects, initial } = .ok v' ∧ v.Reordered v' :=
    Vocabulary.exists_ofDefinitions_of_perm distinct htypes hconstants hobjects made.vocabulary
  obtain ⟨facts, translated, closed⟩ := made.initial
  obtain ⟨facts', translated', perm⟩ :=
    List.perm_comp_forall₂ hinitial (mapM_eq_ok.mp translated)
  let p' : Problem :=
    { p with
      name := problem.name, domainName := domain.name, objects := v'.objects
      predicates := v'.predicates, domainDefinition := { domain with types, constants }
      problemDefinition := { problem with objects, initial } }
  have reordered : p.Reordered p' := by
    refine ⟨made.objects ▸ same.objects, ?_, rfl, rfl, rfl, rfl⟩
    rw [made.predicates]
    exact same.predicates
  refine ⟨p', ?_, reordered.answersAlike made⟩
  have actions : domain.actions.foldlM (declareAction v') .empty = .ok p.actions := by
    have declare : declareAction v' = declareAction v := by
      funext actions a
      simp only [declareAction, same.action]
    rw [declare, made.actions]
  have facts_eq : (Std.ExtTreeSet.ofList facts' : State) = .ofList facts :=
    State.ext fun f => by rw [State.mem_ofList, State.mem_ofList, perm.mem_iff]
  have derived : domain.derived.mapM v'.derivedRule = .ok p.derived := by
    rw [same.derivedRule, made.derived]
  have axioms : domain.axioms.mapM v'.rule = .ok p.axioms := by rw [same.rule, made.axioms]
  have facts : initial.mapM v'.proposition = .ok facts' := by
    rw [same.proposition]
    exact mapM_eq_ok.mpr translated'
  have closed' : (Rule.close v'.objects (p.derived ++ p.axioms)).result (.ofList facts') =
      .ok p.initial := by
    change (Rule.close v'.objects p.rules).result _ = _
    rw [Rule.close_reordered (fun r hr => (made.ready r hr).bound) same.objects, facts_eq]
    exact closed
  have goal : v'.formula [] problem.goal = .ok p.goal := by rw [same.formula, made.goal]
  rw [ofDefinitions_eq, if_neg named]
  simp only [vocabulary, actions, derived, axioms, facts, closed', goal, ok_bind]
  rfl

/-- Where constants and objects have different names, it does not matter in which order types,
constants, objects and initial facts are declared. A problem can be made in either order or in
neither, and the problems that are made give the same answers. -/
theorem ofDefinitions_reordered (domain : Definition.Domain) (problem : Definition.Problem)
    (types constants objects : List Definition.TypedName) (initial : List Definition.Atom)
    (distinct : ((domain.constants ++ problem.objects).map Definition.TypedName.name).Nodup)
    (htypes : types.Perm domain.types) (hconstants : constants.Perm domain.constants)
    (hobjects : objects.Perm problem.objects) (hinitial : initial.Perm problem.initial) :
    ((∃ p', ofDefinitions { domain with types, constants } { problem with objects, initial } =
        .ok p') ↔ ∃ p, ofDefinitions domain problem = .ok p) ∧
    ∀ p p', ofDefinitions domain problem = .ok p →
      ofDefinitions { domain with types, constants } { problem with objects, initial } = .ok p' →
      p.AnswersAlike p' := by
  constructor
  · constructor
    · rintro ⟨p', built'⟩
      have distinct' : ((constants ++ objects).map Definition.TypedName.name).Nodup :=
        (((hconstants.append hobjects).map _).nodup_iff).mpr distinct
      obtain ⟨p, built, -⟩ := exists_ofDefinitions_of_perm distinct' htypes.symm hconstants.symm
        hobjects.symm hinitial.symm built'
      exact ⟨p, built⟩
    · rintro ⟨p, built⟩
      obtain ⟨p', built', -⟩ :=
        exists_ofDefinitions_of_perm distinct htypes hconstants hobjects hinitial built
      exact ⟨p', built'⟩
  · intro p p' built built'
    obtain ⟨p'', built'', alike⟩ :=
      exists_ofDefinitions_of_perm distinct htypes hconstants hobjects hinitial built
    obtain rfl := Except.ok.inj (built'.symm.trans built'')
    exact alike

/-- Types and objects may as well be declared backwards. -/
theorem ofDefinitions_reordered_lamps : ∃ p p', ofDefinitions lampDomain lampProblem = .ok p ∧
    ofDefinitions { lampDomain with types := lampDomain.types.reverse }
      { lampProblem with objects := lampProblem.objects.reverse } = .ok p' ∧
    p'.objects.objects ≠ p.objects.objects ∧ p.AnswersAlike p' := by
  have built : ∃ p, ofDefinitions lampDomain lampProblem = .ok p ∧
      p.objects.objects.head? = some ⟨"left", "switch"⟩ := by
    refine exists_ok_and ?_
    decide +kernel
  obtain ⟨p, built, first⟩ := built
  obtain ⟨-, alike⟩ := ofDefinitions_reordered lampDomain lampProblem lampDomain.types.reverse
    lampDomain.constants lampProblem.objects.reverse lampProblem.initial (by decide)
    (List.reverse_perm _) (List.Perm.refl _) (List.reverse_perm _) (List.Perm.refl _)
  have built' : ∃ p', ofDefinitions { lampDomain with types := lampDomain.types.reverse }
      { lampProblem with objects := lampProblem.objects.reverse } = .ok p' ∧
      p'.objects.objects.head? = some ⟨"bulb", "lamp"⟩ := by
    refine exists_ok_and ?_
    decide +kernel
  obtain ⟨p', built', first'⟩ := built'
  refine ⟨p, p', built, built', fun same => ?_, alike p p' built built'⟩
  rw [same, first] at first'
  exact absurd first' (by decide)

end Problem
end TypedPlanning
