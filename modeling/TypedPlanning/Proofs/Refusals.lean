import TypedPlanning.Proofs.Enumeration
import TypedPlanning.Proofs.Transactions

/-! The reasons for which a query is refused. Translation lets no variable out of its scope, so
whatever is evaluated finds its variables bound, whether or not the definitions pass the static
check. What is left is a call or an argument that does not fit, and a construct that cannot be
decided in the very thing that is evaluated. -/

namespace TypedPlanning
open Fallible Evaluation

def Undecided (features : List Feature) (e : Error) : Prop :=
  ∃ feature ∈ features, e = .unsupported feature

/-- Why a query that evaluates something with these constructs is refused. -/
inductive Refuses (features : List Feature) : Error → Prop where
  | call (fault : CallFault) : Refuses features (.call fault)
  | argumentType (parameter expected object found : String) :
    Refuses features (.argumentType parameter expected object found)
  | undecided {e : Error} : Undecided features e → Refuses features e

theorem Refuses.mono {features more : List Feature} (wide : features ⊆ more) {e : Error}
    (refuses : Refuses features e) : Refuses more e := by
  obtain fault | ⟨parameter, expected, object, found⟩ | ⟨feature, there, same⟩ := refuses
  · exact .call fault
  · exact .argumentType parameter expected object found
  · exact .undecided ⟨feature, wide there, same⟩

theorem Evaluation.Trouble.undecided {free : List String} {features : List Feature}
    {g : Assignment} {e : Error} (trouble : Trouble free features g e)
    (bound : ∀ x ∈ free, g.get? x ≠ none) : Undecided features e := by
  obtain ⟨x, hx, unbound, -⟩ | undecided := trouble
  · exact absurd unbound (bound x hx)
  · exact undecided

/-- Where all variables are bound, evaluation fails only on the first construct that cannot be
decided, whatever the world is like. -/
theorem Formula.failsOnly_eval_first {w : World} {f : Formula} {g : Assignment}
    (bound : ∀ x ∈ f.free, g.get? x ≠ none) :
    FailsOnly (fun e => ∃ feature, f.firstUnsupported = some feature ∧ e = .unsupported feature)
      ((f.eval w).outcome g) := by
  intro e failed
  cases first : f.firstUnsupported with
  | some feature =>
    rw [eval, first] at failed
    exact ⟨feature, rfl, (Except.error.inj failed).symm⟩
  | none =>
    rw [firstUnsupported_eq_head?] at first
    exact ((f.failsOnly_eval g e failed).elim bound (List.head?_eq_none_iff.mp first)).elim

namespace Action
variable {a : Action} {objects : ObjectTable} {s : State} {arguments : List Object}

structure Closed (a : Action) : Prop where
  precondition : a.precondition.free ⊆ a.parameters.map Parameter.variableName
  effects : Effect.freeIn a.effects ⊆ a.parameters.map Parameter.variableName

theorem failsOnly_assign (a : Action) (objects : ObjectTable) (arguments : List Object) :
    FailsOnly (Refuses []) (a.assign objects arguments) := by
  unfold assign
  split
  · exact failsOnly_error (.call _)
  · split
    · exact failsOnly_error (.argumentType _ _ _ _)
    · exact failsOnly_ok _

theorem bound_of_assign {g : Assignment} (assigned : a.assign objects arguments = .ok g)
    {free : List String} (inside : free ⊆ a.parameters.map Parameter.variableName) :
    ∀ x ∈ free, g.get? x ≠ none := by
  obtain ⟨fits, rfl⟩ := assign_eq_ok assigned
  exact fun x hx => Assignment.get?_ofArguments_ne_none fits (inside hx)

theorem Closed.failsOnly_isApplicable (closed : a.Closed) :
    FailsOnly (Refuses a.precondition.features) (a.isApplicable objects s arguments) := by
  have assigning := (a.failsOnly_assign objects arguments).mono
    fun e => Refuses.mono (List.nil_subset a.precondition.features)
  refine assigning.bind fun g assigned => ?_
  have bound := bound_of_assign assigned closed.precondition
  exact (Formula.failsOnly_eval _ g).mono fun e trouble => .undecided (trouble.undecided bound)

theorem Closed.failsOnly_delta (closed : a.Closed) :
    FailsOnly (Refuses (Effect.featuresIn a.effects)) (a.delta objects s arguments) := by
  have assigning := (a.failsOnly_assign objects arguments).mono
    fun e => Refuses.mono (List.nil_subset (Effect.featuresIn a.effects))
  refine assigning.bind fun g assigned => ?_
  have bound := bound_of_assign assigned closed.effects
  exact (Delta.failsOnly_ofEffects _ g).mono fun e trouble => .undecided (trouble.undecided bound)

end Action

namespace Problem
variable {v : Vocabulary} {p : Problem} {domain : Definition.Domain}
  {problem : Definition.Problem} {s : State} {a : Action} {arguments : List Object}

/-- Why a query about a call is refused: the call names nothing, or the part of its action that is
evaluated gives a reason. -/
inductive RefusesCall (p : Problem) (part : Action → List Feature) (call : String) :
    Error → Prop where
  | unread {fault : CallFault} : p.readCall call = .error (.call fault) →
    RefusesCall p part call (.call fault)
  | refused {a : Action} {arguments : List Object} {e : Error} :
    p.readCall call = .ok (a, arguments) → a ∈ p.actions.toList → Refuses (part a) e →
    RefusesCall p part call e

theorem failsOnly_readCall (p : Problem) (call : String) :
    FailsOnly (fun e => ∃ fault, e = .call fault) (p.readCall call) := by
  rw [readCall]
  refine FailsOnly.bind ?_ fun c _ => ?_
  · unfold Text.Call.read
    dsimp only
    split
    · split
      · exact failsOnly_ok _
      · exact failsOnly_error ⟨_, rfl⟩
    · exact failsOnly_error ⟨_, rfl⟩
  · unfold interpret
    split
    · exact failsOnly_error ⟨_, rfl⟩
    · refine FailsOnly.bind ?_ fun _ _ => failsOnly_ok _
      unfold Problem.arguments
      split
      · refine failsOnly_mapM fun name _ => ?_
        unfold object
        split
        · exact failsOnly_ok _
        · exact failsOnly_error ⟨_, rfl⟩
      · exact failsOnly_error ⟨_, rfl⟩

/-- Candidates are accepted as arguments, so only the precondition itself can give a reason. -/
theorem failsOnly_applicableArguments_first (coherent : p.objects.Coherent) (closed : a.Closed) :
    FailsOnly (fun e => ∃ feature, a.precondition.firstUnsupported = some feature ∧
      e = .unsupported feature) (p.applicableArguments s a) := by
  unfold applicableArguments
  simp only [Candidates.forIn_eq]
  refine FailsOnly.bind (failsOnly_forIn fun arguments candidate kept => ?_) fun _ _ =>
    failsOnly_ok _
  refine FailsOnly.bind ?_ fun b _ => ?_
  · rw [isApplicable_of_mem_tuples coherent candidate]
    refine Formula.failsOnly_eval_first fun x hx => ?_
    exact Assignment.get?_ofArguments_ne_none (Candidates.length_of_mem_tuples candidate)
      (closed.precondition hx)
  · cases b <;> exact failsOnly_ok _

namespace MadeFrom
variable (made : MadeFrom domain problem v p)
include made

theorem closed_goal : p.goal.free = [] :=
  List.subset_nil.mp (Vocabulary.free_subset_of_formula made.goal)

theorem closed_action (ha : a ∈ p.actions.toList) : a.Closed := by
  obtain ⟨d, -, -, translated⟩ := made.readable_action_of_mem ha
  obtain ⟨-, f, hf, es, hes, rfl⟩ := Vocabulary.action_eq_ok.mp translated
  have precondition := Vocabulary.free_subset_of_formula hf
  have effects := Vocabulary.free_subset_of_effects hes
  rw [Vocabulary.within, List.append_nil] at precondition effects
  exact ⟨precondition, effects⟩

theorem failsOnly_call {α : Type} {part : Action → List Feature} {call : String}
    {query : Action × List Object → Except Error α}
    (asks : ∀ a ∈ p.actions.toList, ∀ arguments,
      FailsOnly (Refuses (part a)) (query (a, arguments))) :
    FailsOnly (p.RefusesCall part call) (p.readCall call >>= query) := by
  refine FailsOnly.bind (fun e failed => ?_) fun found read => ?_
  · obtain ⟨fault, rfl⟩ := p.failsOnly_readCall call e failed
    exact .unread failed
  · obtain ⟨a, arguments⟩ := found
    have ha := made.mem_actions_of_readCall read
    exact (asks a ha arguments).mono fun e => .refused read ha

theorem failsOnly_isGoal (s : State) : FailsOnly (Undecided p.goal.features) (p.isGoal s) := by
  refine (Formula.failsOnly_eval _ _).mono fun e trouble => trouble.undecided fun x hx => ?_
  rw [made.closed_goal] at hx
  cases hx

/-- Closing never fails, so a step fails only in the change that its action makes. -/
theorem failsOnly_apply (ha : a ∈ p.actions.toList) :
    FailsOnly (Refuses (Effect.featuresIn a.effects)) (p.apply s a arguments) := by
  refine ((made.closed_action ha).failsOnly_delta.bind fun _ _ => failsOnly_ok _).bind fun t _ => ?_
  obtain ⟨changed, t', closes, -⟩ := made.exists_close t
  rw [closed, closes]
  exact failsOnly_ok t'

theorem failsOnly_applicableArguments (ha : a ∈ p.actions.toList) :
    FailsOnly (Undecided a.precondition.features) (p.applicableArguments s a) := by
  refine (failsOnly_applicableArguments_first made.coherent_objects (made.closed_action ha)).mono ?_
  rintro e ⟨feature, first, same⟩
  rw [Formula.firstUnsupported_eq_head?] at first
  exact ⟨feature, List.mem_of_head? first, same⟩

theorem failsOnly_applicableActions (s : State) :
    FailsOnly (fun e => ∃ a ∈ p.actions.toList, Undecided a.precondition.features e)
      (p.applicableActions s) := by
  refine FailsOnly.bind (failsOnly_mapM fun a ha => ?_) fun _ _ => failsOnly_ok _
  refine FailsOnly.bind ?_ fun _ _ => failsOnly_ok _
  exact (made.failsOnly_applicableArguments ha).mono fun e undecided => ⟨a, ha, undecided⟩

theorem failsOnly_isTransition (call : String) (s' : State) :
    FailsOnly (p.RefusesCall (fun a => a.precondition.features ++ Effect.featuresIn a.effects) call)
      (p.isTransition s call s') := by
  refine made.failsOnly_call fun a ha arguments => FailsOnly.bind ?_ fun b _ => ?_
  · exact (made.closed_action ha).failsOnly_isApplicable.mono
      fun e => Refuses.mono (List.subset_append_left _ _)
  · cases b with
    | false => exact failsOnly_ok false
    | true =>
      refine FailsOnly.bind ?_ fun _ _ => failsOnly_ok _
      exact (made.failsOnly_apply ha).mono fun e => Refuses.mono (List.subset_append_right _ _)

end MadeFrom

/-- In a problem that has been made nothing is left unbound. Closing never fails. The goal, and the
enumerations, fail only on a construct of the goal or of a precondition that cannot be decided; an
action can also be refused its arguments, and a call its names. -/
theorem queries_refuse (built : ofDefinitions domain problem = .ok p) (s : State) :
    FailsOnly (Undecided p.goal.features) (p.isGoal s) ∧
    (∃ changed s', p.close.run s = .ok changed s') ∧
    FailsOnly (fun e => ∃ a ∈ p.actions.toList, Undecided a.precondition.features e)
      (p.applicableActions s) ∧
    (∀ a ∈ p.actions.toList,
      FailsOnly (Undecided a.precondition.features) (p.applicableArguments s a) ∧
      ∀ arguments,
        FailsOnly (Refuses a.precondition.features) (a.isApplicable p.objects s arguments) ∧
        FailsOnly (Refuses (Effect.featuresIn a.effects)) (a.delta p.objects s arguments)) ∧
    ∀ call,
      FailsOnly (p.RefusesCall (·.precondition.features) call) (p.isApplicable s call) ∧
      FailsOnly (p.RefusesCall (Effect.featuresIn ·.effects) call) (p.next s call) ∧
      ∀ s', FailsOnly
        (p.RefusesCall (fun a => a.precondition.features ++ Effect.featuresIn a.effects) call)
        (p.isTransition s call s') := by
  obtain ⟨v, made⟩ := madeFrom_of_ofDefinitions built
  obtain ⟨changed, s', closes, -⟩ := made.exists_close s
  refine ⟨made.failsOnly_isGoal s, ⟨changed, s', closes⟩, made.failsOnly_applicableActions s,
    fun a ha => ⟨made.failsOnly_applicableArguments ha, fun arguments => ?_⟩,
    fun call => ⟨?_, ?_, made.failsOnly_isTransition call⟩⟩
  · exact ⟨(made.closed_action ha).failsOnly_isApplicable, (made.closed_action ha).failsOnly_delta⟩
  · exact made.failsOnly_call fun a ha arguments => (made.closed_action ha).failsOnly_isApplicable
  · exact made.failsOnly_call fun a ha arguments => made.failsOnly_apply ha

/-- A goal that cannot be decided refuses every question about it, and does not touch the steps:
those are refused for their calls and arguments alone. -/
theorem queries_refuse_preference : ∃ p,
    ofDefinitions lampDomain { lampProblem with goal := .unsupported .preference } = .ok p ∧
    ∀ s, (∀ e, p.isGoal s = .error e → e = .unsupported .preference) ∧
      ∀ call e, p.next s call = .error e → (∃ fault, e = .call fault) ∨
        ∃ parameter expected object found, e = .argumentType parameter expected object found := by
  have built : ∃ p,
      ofDefinitions lampDomain { lampProblem with goal := .unsupported .preference } = .ok p ∧
      p.goal.features = [.preference] ∧
      ∀ a ∈ p.actions.toList, Effect.featuresIn a.effects = [] := by
    refine exists_ok_and ?_
    decide +kernel
  obtain ⟨p, built, goal, decidable⟩ := built
  refine ⟨p, built, fun s => ⟨fun e failed => ?_, fun call e failed => ?_⟩⟩
  · obtain ⟨feature, found, rfl⟩ := (queries_refuse built s).1 e failed
    rw [goal, List.mem_singleton] at found
    rw [found]
  · obtain ⟨-, -, -, -, calls⟩ := queries_refuse built s
    obtain unread | ⟨-, ha, refuses⟩ := (calls call).2.1 e failed
    · exact .inl ⟨_, rfl⟩
    · rw [decidable _ ha] at refuses
      obtain fault | ⟨parameter, expected, object, found⟩ | ⟨feature, found, -⟩ := refuses
      · exact .inl ⟨fault, rfl⟩
      · exact .inr ⟨parameter, expected, object, found, rfl⟩
      · cases found

end Problem
end TypedPlanning
