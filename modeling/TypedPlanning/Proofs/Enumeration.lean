import TypedPlanning.Proofs.Listings
import TypedPlanning.Proofs.Preservation
import TypedPlanning.Proofs.TextStates
import Mathlib.Data.List.Lex

/-! The enumeration of applicable actions. It goes through all tuples of candidate arguments of
every action, in the order of declaration, and keeps those for which the precondition holds. A call
can name no tuple outside of it: what an action accepts of the objects of the problem is a tuple of
candidates. -/

namespace TypedPlanning
open Fallible Evaluation

namespace Problem
variable {v : Vocabulary} {p : Problem} {domain : Definition.Domain}
  {problem : Definition.Problem} {s : State} {a : Action} {arguments : List Object}

/-- The enumeration filters the tuples of candidates, and comes through if the precondition can be
evaluated for all of them. -/
theorem applicableArguments_eq_ok {found : List (List Object)} :
    p.applicableArguments s a = .ok found ↔
      (∀ arguments ∈ (Candidates.of p.objects a.parameters).tuples,
        ∃ b, a.isApplicable p.objects s arguments = .ok b) ∧
      found = (Candidates.of p.objects a.parameters).tuples.filter fun arguments =>
        yes (a.isApplicable p.objects s arguments) := by
  unfold applicableArguments
  simp only [Candidates.forIn_eq]
  rw [bind_pure_eq_ok]
  simp only [forIn_keep_eq_ok, List.nil_append]
  constructor
  · rintro ⟨out, ⟨tested, kept⟩, rfl⟩
    exact ⟨tested, kept⟩
  · rintro ⟨tested, rfl⟩
    exact ⟨_, ⟨tested, List.toList_toArray⟩, List.toList_toArray.symm⟩

theorem applicableActions_eq_ok {found : List GroundAction} :
    p.applicableActions s = .ok found ↔
      (∀ a ∈ p.actions.toList, ∀ arguments ∈ (Candidates.of p.objects a.parameters).tuples,
        ∃ b, a.isApplicable p.objects s arguments = .ok b) ∧
      found = p.actions.toList.flatMap fun a =>
        ((Candidates.of p.objects a.parameters).tuples.filter fun arguments =>
          yes (a.isApplicable p.objects s arguments)).map (GroundAction.mk a.name) := by
  have group (a : Action) (found : List GroundAction) :
      (do return (← p.applicableArguments s a).map (GroundAction.mk a.name)) =
          (.ok found : Except Error _) ↔
        (∀ arguments ∈ (Candidates.of p.objects a.parameters).tuples,
          ∃ b, a.isApplicable p.objects s arguments = .ok b) ∧
        found = ((Candidates.of p.objects a.parameters).tuples.filter fun arguments =>
          yes (a.isApplicable p.objects s arguments)).map (GroundAction.mk a.name) := by
    rw [bind_pure_eq_ok]
    simp only [applicableArguments_eq_ok]
    constructor
    · rintro ⟨_, ⟨tested, rfl⟩, rfl⟩
      exact ⟨tested, rfl⟩
    · rintro ⟨tested, rfl⟩
      exact ⟨_, ⟨tested, rfl⟩, rfl⟩
  rw [applicableActions, bind_pure_eq_ok]
  simp only [mapM_checked group]
  constructor
  · rintro ⟨_, ⟨tested, rfl⟩, rfl⟩
    exact ⟨tested, List.flatMap_def.symm⟩
  · rintro ⟨tested, rfl⟩
    exact ⟨_, ⟨tested, rfl⟩, List.flatMap_def⟩

theorem mem_applicableActions {found : List GroundAction}
    (listed : p.applicableActions s = .ok found) {x : GroundAction} :
    x ∈ found ↔ ∃ a ∈ p.actions.toList, a.name = x.action ∧
      x.arguments ∈ (Candidates.of p.objects a.parameters).tuples ∧
        a.isApplicable p.objects s x.arguments = .ok true := by
  obtain ⟨-, rfl⟩ := applicableActions_eq_ok.mp listed
  simp only [List.mem_flatMap, List.mem_map, List.mem_filter, yes_iff]
  constructor
  · rintro ⟨a, ha, arguments, ⟨candidate, applicable⟩, rfl⟩
    exact ⟨a, ha, rfl, candidate, applicable⟩
  · rintro ⟨a, ha, same, candidate, applicable⟩
    exact ⟨a, ha, x.arguments, ⟨candidate, applicable⟩, by rw [same]⟩

theorem isApplicable_of_mem_tuples (coherent : p.objects.Coherent)
    (candidate : arguments ∈ (Candidates.of p.objects a.parameters).tuples) :
    a.isApplicable p.objects s arguments =
      (a.precondition.eval ⟨p.objects, s⟩).outcome (.ofArguments a.parameters arguments) := by
  have accepted := (coherent.mem_tuples_iff.mp candidate).imp fun o x fits => fits.2
  rw [Action.isApplicable, Action.assign_eq_ok_iff.mpr ⟨accepted, rfl⟩]
  rfl

theorem mem_tuples_of_isApplicable (coherent : p.objects.Coherent)
    (known : ∀ o ∈ arguments, o ∈ p.objects.objects) {b : Bool}
    (answer : a.isApplicable p.objects s arguments = .ok b) :
    arguments ∈ (Candidates.of p.objects a.parameters).tuples := by
  obtain ⟨g, assigned, -⟩ := bind_eq_ok.mp answer
  exact (Action.mem_tuples_iff_assign coherent).mpr ⟨known, g, assigned⟩

theorem exists_mem_tuples_iff (coherent : p.objects.Coherent) :
    (∃ arguments, arguments ∈ (Candidates.of p.objects a.parameters).tuples) ↔
      ∀ x ∈ a.parameters, ∃ o ∈ p.objects.objects, p.objects.satisfies o x.type = true := by
  simp only [coherent.mem_tuples_iff, ObjectTable.Admits]
  constructor
  · rintro ⟨arguments, admitted⟩ x hx
    obtain ⟨o, -, known, typed⟩ := exists_of_mem_right admitted hx
    exact ⟨o, known, typed⟩
  · intro each
    obtain ⟨arguments, chosen⟩ := exists_forall₂ each
    exact ⟨arguments, .flip chosen⟩

namespace MadeFrom
variable (made : MadeFrom domain problem v p)
include made

theorem exists_isApplicable_iff (ha : a ∈ p.actions.toList)
    (candidate : arguments ∈ (Candidates.of p.objects a.parameters).tuples) :
    (∃ b, a.isApplicable p.objects s arguments = .ok b) ↔ a.precondition.features = [] := by
  rw [isApplicable_of_mem_tuples made.coherent_objects candidate]
  constructor
  · rintro ⟨b, answer⟩
    exact Formula.features_eq_nil_of_eval answer
  · intro decidable
    obtain ⟨d, -, -, translated⟩ := made.readable_action_of_mem ha
    obtain ⟨-, f, hf, es, -, rfl⟩ := Vocabulary.action_eq_ok.mp translated
    have fits := Candidates.length_of_mem_tuples candidate
    have bound := Vocabulary.bound_of_subset_within fits (Vocabulary.free_subset_of_formula hf)
    obtain ⟨b, answer, -⟩ := Formula.exists_eval_eq (w := ⟨p.objects, s⟩) made.coherent_objects
      bound decidable
    exact ⟨b, answer⟩

/-- The enumeration fails exactly on an action that has candidates for all parameters, and a
construct in its precondition that cannot be decided. -/
theorem applicableActions_eq_error_iff :
    (∃ e, p.applicableActions s = .error e) ↔ ∃ a ∈ p.actions.toList,
      (∀ x ∈ a.parameters, ∃ o ∈ p.objects.objects, p.objects.satisfies o x.type = true) ∧
        a.precondition.features ≠ [] := by
  have fails : (∃ e, p.applicableActions s = .error e) ↔
      ¬ ∃ found, p.applicableActions s = .ok found := by
    cases p.applicableActions s <;> simp
  rw [fails]
  simp only [applicableActions_eq_ok, exists_and_left, exists_eq, and_true, not_forall]
  constructor
  · rintro ⟨a, ha, arguments, candidate, failed⟩
    refine ⟨a, ha, (exists_mem_tuples_iff made.coherent_objects).mp ⟨_, candidate⟩, ?_⟩
    rwa [made.exists_isApplicable_iff ha candidate] at failed
  · rintro ⟨a, ha, each, undecidable⟩
    obtain ⟨arguments, candidate⟩ := (exists_mem_tuples_iff made.coherent_objects).mpr each
    refine ⟨a, ha, arguments, candidate, ?_⟩
    rwa [made.exists_isApplicable_iff ha candidate]

end MadeFrom

def objectPlace (domain : Definition.Domain) (problem : Definition.Problem) (o : Object) : Nat :=
  ((domain.constants ++ problem.objects).map Definition.TypedName.name).idxOf o.name

def actionPlace (domain : Definition.Domain) (action : String) : Nat :=
  (domain.actions.map Definition.Action.name).idxOf action

/-- One ground action comes before another one if its action is declared earlier, or if they have
one action and, of the first arguments in which they differ, its own is declared earlier. -/
def Precedes (domain : Definition.Domain) (problem : Definition.Problem) (x y : GroundAction) :
    Prop :=
  actionPlace domain x.action < actionPlace domain y.action ∨ x.action = y.action ∧
    List.Lex (fun o o' => objectPlace domain problem o < objectPlace domain problem o')
      x.arguments y.arguments

theorem not_precedes_self (x : GroundAction) : ¬ Precedes domain problem x x := by
  have asymm : Std.Asymm fun o o' => objectPlace domain problem o < objectPlace domain problem o' :=
    ⟨fun _ _ => Nat.lt_asymm⟩
  rintro (earlier | ⟨-, earlier⟩)
  · exact Nat.lt_irrefl _ earlier
  · exact asymm_of (List.Lex _) earlier earlier

namespace MadeFrom
variable (made : MadeFrom domain problem v p)
include made

theorem pairwise_actions : p.actions.toList.Pairwise fun a b =>
    actionPlace domain a.name < actionPlace domain b.name := by
  obtain ⟨translated, each, same⟩ := foldlM_declareAction made.actions
  have names : domain.actions.map Definition.Action.name = translated.map Named.name := by
    rw [← List.forall₂_eq_eq_eq, List.forall₂_map_left_iff, List.forall₂_map_right_iff]
    exact each.imp fun d b ⟨_, translated⟩ => (name_of_action translated).symm
  have ordered := pairwise_idxOf_eraseDups (translated.map Named.name)
  rw [← NamedTable.map_name_foldl_insert, ← same, List.pairwise_map, ← names] at ordered
  exact ordered

theorem pairwise_tuples (parameters : List Parameter) :
    (Candidates.of p.objects parameters).tuples.Pairwise
      (List.Lex fun o o' => objectPlace domain problem o < objectPlace domain problem o') := by
  obtain ⟨types, hierarchy, -, sound, -⟩ := Vocabulary.sound_ofDefinitions made.vocabulary
  have objects_eq := made.objects.trans sound.objects_eq
  refine pairwise_product fun os hos => ?_
  obtain ⟨x, -, rfl⟩ := List.mem_map.mp hos
  have ordered := ObjectTable.pairwise_lookup_ofList (Definition.made_typeHierarchy hierarchy)
    ((domain.constants ++ problem.objects).map Object.of) x.type
  rw [← objects_eq, List.map_map] at ordered
  exact ordered

theorem pairwise_applicableActions {found : List GroundAction}
    (listed : p.applicableActions s = .ok found) : found.Pairwise (Precedes domain problem) := by
  obtain ⟨-, rfl⟩ := applicableActions_eq_ok.mp listed
  rw [List.pairwise_flatMap]
  constructor
  · intro a _
    rw [List.pairwise_map]
    refine ((made.pairwise_tuples a.parameters).filter _).imp fun earlier => ?_
    exact .inr ⟨rfl, earlier⟩
  · refine made.pairwise_actions.imp fun earlier x hx y hy => ?_
    obtain ⟨_, -, rfl⟩ := List.mem_map.mp hx
    obtain ⟨_, -, rfl⟩ := List.mem_map.mp hy
    exact .inl earlier

theorem readCall_text (ha : a ∈ p.actions.toList)
    (candidate : arguments ∈ (Candidates.of p.objects a.parameters).tuples) :
    p.readCall (GroundAction.text ⟨a.name, arguments⟩) = .ok (a, arguments) := by
  obtain ⟨d, -, named, translated⟩ := made.readable_action_of_mem ha
  have known : ∀ o ∈ arguments, o ∈ p.objects.objects := by
    intro o ho
    obtain ⟨x, -, there, -⟩ :=
      exists_of_mem_left (made.coherent_objects.mem_tuples_iff.mp candidate) ho
    exact there
  have readable : Text.Call.Readable ⟨a.name, arguments.map Object.name⟩ := by
    refine ⟨name_of_action translated ▸ named, fun name hname => ?_⟩
    obtain ⟨o, ho, rfl⟩ := List.mem_map.mp hname
    exact made.legible.objects o (known o ho)
  have read := Text.Call.read_spaced readable
  have fits : a.arity = (arguments.map Object.name).length := by
    rw [List.length_map, Candidates.length_of_mem_tuples candidate]
    rfl
  rw [readCall, GroundAction.text, read, ok_bind, interpret]
  have found : p.actions.get? a.name = some a := made.coherent_actions.mem_toList_iff.mp ha
  simp only [found]
  rw [Problem.arguments, if_pos fits, made.legible.mapM_object known]
  rfl

theorem mem_actions_of_interpret {c : Text.Call} (read : p.interpret c = .ok (a, arguments)) :
    a ∈ p.actions.toList := by
  obtain ⟨⟨name, found⟩, -⟩ := interpret_eq_ok made.coherent_objects read
  exact made.coherent_actions.mem_toList_iff.mpr
    (made.coherent_actions.name_of_get? found ▸ found)

theorem mem_actions_of_readCall {text : String} (read : p.readCall text = .ok (a, arguments)) :
    a ∈ p.actions.toList := by
  obtain ⟨c, -, read⟩ := bind_eq_ok.mp read
  exact made.mem_actions_of_interpret read

theorem isApplicable_iff_mem {found : List GroundAction}
    (listed : p.applicableActions s = .ok found) (text : String) :
    p.isApplicable s text = .ok true ↔
      ∃ a arguments, p.readCall text = .ok (a, arguments) ∧ ⟨a.name, arguments⟩ ∈ found := by
  simp only [mem_applicableActions listed]
  constructor
  · intro applicable
    obtain ⟨⟨a, arguments⟩, read, applicable⟩ := bind_eq_ok.mp applicable
    obtain ⟨-, known⟩ := readCall_eq_ok made.coherent_objects read
    have candidate := mem_tuples_of_isApplicable made.coherent_objects known applicable
    exact ⟨a, arguments, read, a, made.mem_actions_of_readCall read, rfl, candidate, applicable⟩
  · rintro ⟨a, arguments, read, a', ha', same, -, applicable⟩
    have ha := made.mem_actions_of_readCall read
    obtain rfl := made.coherent_actions.eq_of_name_eq ha' ha same
    exact bind_eq_ok.mpr ⟨_, read, applicable⟩

theorem exists_readCall_of_mem {found : List GroundAction}
    (listed : p.applicableActions s = .ok found) {x : GroundAction} (hx : x ∈ found) :
    ∃ a, p.readCall x.text = .ok (a, x.arguments) ∧ a.name = x.action := by
  obtain ⟨a, ha, named, candidate, -⟩ := (mem_applicableActions listed).mp hx
  refine ⟨a, ?_, named⟩
  rw [← made.readCall_text ha candidate, named]

theorem nodup_applicableActions {found : List GroundAction}
    (listed : p.applicableActions s = .ok found) : found.Nodup := by
  refine (made.pairwise_applicableActions listed).imp fun {x y} earlier same => ?_
  exact not_precedes_self y (same ▸ earlier)

theorem nodup_map_text {found : List GroundAction}
    (listed : p.applicableActions s = .ok found) : (found.map GroundAction.text).Nodup := by
  refine (made.nodup_applicableActions listed).map_on fun x hx y hy same => ?_
  obtain ⟨a, read, named⟩ := made.exists_readCall_of_mem listed hx
  obtain ⟨a', read', named'⟩ := made.exists_readCall_of_mem listed hy
  rw [same, read'] at read
  obtain ⟨rfl, arguments⟩ := Prod.mk.inj (Except.ok.inj read)
  rw [GroundAction.mk.injEq]
  exact ⟨named.symm.trans named', arguments.symm⟩

end MadeFrom

/-- If the enumeration comes through, a call is applicable exactly if it names a ground action in
it, no ground action or text is in it twice, it goes in the order of declaration, and its texts are
read back. It fails exactly if the precondition of an action that has candidates for its parameters
holds a construct that cannot be decided. -/
theorem applicableActions_exact (built : ofDefinitions domain problem = .ok p) (s : State) :
    (∀ found, p.applicableActions s = .ok found →
      (∀ text, p.isApplicable s text = .ok true ↔
        ∃ a arguments, p.readCall text = .ok (a, arguments) ∧ ⟨a.name, arguments⟩ ∈ found) ∧
      found.Nodup ∧ (found.map GroundAction.text).Nodup ∧
      found.Pairwise (Precedes domain problem) ∧
      ∀ x ∈ found, ∃ a, p.readCall x.text = .ok (a, x.arguments) ∧ a.name = x.action) ∧
    ((∃ e, p.applicableActions s = .error e) ↔ ∃ a ∈ p.actions.toList,
      (∀ x ∈ a.parameters, ∃ o ∈ p.objects.objects, p.objects.satisfies o x.type = true) ∧
        a.precondition.features ≠ []) := by
  obtain ⟨v, made⟩ := madeFrom_of_ofDefinitions built
  refine ⟨fun found listed => ?_, made.applicableActions_eq_error_iff⟩
  exact ⟨made.isApplicable_iff_mem listed, made.nodup_applicableActions listed,
    made.nodup_map_text listed, made.pairwise_applicableActions listed,
    fun x hx => made.exists_readCall_of_mem listed hx⟩

/-- At first both switches can be toggled, and nothing else. -/
theorem applicableActions_exact_lamps : ∃ p, ofDefinitions lampDomain lampProblem = .ok p ∧
    p.applicableActions p.initial =
      .ok [⟨"toggle", [⟨"left", "switch"⟩]⟩, ⟨"toggle", [⟨"right", "switch"⟩]⟩] ∧
    ∀ text, p.isApplicable p.initial text = .ok true ↔
      ∃ a arguments, p.readCall text = .ok (a, arguments) ∧ a.name = "toggle" ∧
        (arguments = [⟨"left", "switch"⟩] ∨ arguments = [⟨"right", "switch"⟩]) := by
  have built : ∃ p, ofDefinitions lampDomain lampProblem = .ok p ∧
      p.applicableActions p.initial =
        .ok [⟨"toggle", [⟨"left", "switch"⟩]⟩, ⟨"toggle", [⟨"right", "switch"⟩]⟩] := by
    refine exists_ok_and ?_
    decide +kernel
  obtain ⟨p, built, listed⟩ := built
  obtain ⟨exact, -⟩ := (applicableActions_exact built p.initial).1 _ listed
  refine ⟨p, built, listed, fun text => ?_⟩
  simp only [exact, List.mem_cons, GroundAction.mk.injEq, List.not_mem_nil, or_false, ← and_or_left]

end Problem
end TypedPlanning
