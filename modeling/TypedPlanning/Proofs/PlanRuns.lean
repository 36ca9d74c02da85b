import TypedPlanning.Proofs.Calls
import TypedPlanning.Proofs.Construction

/-! Plans as chains of single transitions. A plan is run on one current state, and each of its calls
is read only when its turn comes. The answer is the same as that of asking for every call in turn
whether it is applicable and which state comes next. -/

namespace TypedPlanning
namespace Problem
open Fallible

variable {p : Problem} {s mid last : State} {call : String} {calls before after : List String}

theorem result_update (p : Problem) (a : Action) (arguments : List Object) (s : State) :
    (p.update a arguments).result s = p.apply s a arguments := by
  have closing (changed : Bool) (t : State) :
      Update.result (do return (← p.close) || changed) t = p.closed t := by
    rw [Update.result_bind_of_forall fun _ _ => Update.result_pure _ _, closed_eq_result]
    cases p.close.result t <;> rfl
  rw [update, Update.result_bind_of_forall closing, Action.result_update]
  rfl

theorem run_read_cons (p : Problem) (s : State) (call : String)
    (rest : List (Except Error Text.Call)) :
    p.run s (Text.Call.read call :: rest) = do
      if ← p.isApplicable s call then p.run (← p.next s call) rest else return false := by
  rw [run, isApplicable, next, readCall]
  cases Text.Call.read call with
  | error e => rfl
  | ok c =>
    simp only [ok_bind]
    cases p.interpret c with
    | error e => rfl
    | ok found =>
      obtain ⟨a, arguments⟩ := found
      simp only [ok_bind]
      refine bind_congr fun applicable => ?_
      cases applicable with
      | false => rfl
      | true =>
        simp only [if_true, ← result_update, Update.result]
        cases (p.update a arguments).run s <;> rfl

theorem isTransition_eq_ok_true : p.isTransition s call mid = .ok true ↔
    p.isApplicable s call = .ok true ∧ p.next s call = .ok mid := by
  rw [isTransition, isApplicable, next]
  cases p.readCall call with
  | error e => simp [bind, Except.bind]
  | ok found =>
    obtain ⟨a, arguments⟩ := found
    show (a.isApplicable p.objects s arguments >>= _) = _ ↔
      a.isApplicable p.objects s arguments = _ ∧ p.apply s a arguments = _
    rw [bind_eq_ok]
    constructor
    · rintro ⟨applicable, asked, rest⟩
      cases applicable with
      | false => cases rest
      | true =>
        obtain ⟨t, applied, same⟩ := bind_eq_ok.mp rest
        have equal : t = mid := eq_of_beq (Except.ok.inj same)
        exact ⟨asked, equal ▸ applied⟩
    · rintro ⟨asked, applied⟩
      refine ⟨true, asked, bind_eq_ok.mpr ⟨mid, applied, ?_⟩⟩
      rw [beq_self_eq_true]
      rfl

/-- Each call makes a transition, from the first state to the last. -/
inductive Leads (p : Problem) : State → List String → State → Prop where
  | nil (s : State) : p.Leads s [] s
  | cons {s mid last : State} {call : String} {calls : List String} :
    p.isTransition s call mid = .ok true → p.Leads mid calls last → p.Leads s (call :: calls) last

/-- The call makes no transition from the state, and the answer to a plan is settled by it: it is
not applicable, or an error arises, in its precondition or in what it does. -/
inductive StopsWith (p : Problem) (s : State) (call : String) : Except Error Bool → Prop where
  | inapplicable : p.isApplicable s call = .ok false → p.StopsWith s call (.ok false)
  | undecided {e : Error} : p.isApplicable s call = .error e → p.StopsWith s call (.error e)
  | failing {e : Error} : p.isApplicable s call = .ok true → p.next s call = .error e →
    p.StopsWith s call (.error e)

theorem stopsWith_ok {b : Bool} :
    p.StopsWith s call (.ok b) ↔ b = false ∧ p.isApplicable s call = .ok false := by
  constructor
  · rintro ⟨inapplicable⟩
    exact ⟨rfl, inapplicable⟩
  · rintro ⟨rfl, inapplicable⟩
    exact .inapplicable inapplicable

theorem isTransition_or_stopsWith (p : Problem) (s : State) (call : String) :
    (∃ mid, p.isTransition s call mid = .ok true) ∨ ∃ answer, p.StopsWith s call answer := by
  cases asked : p.isApplicable s call with
  | error e => exact .inr ⟨_, .undecided asked⟩
  | ok applicable =>
    cases applicable with
    | false => exact .inr ⟨_, .inapplicable asked⟩
    | true =>
      cases taken : p.next s call with
      | error e => exact .inr ⟨_, .failing asked taken⟩
      | ok mid => exact .inl ⟨mid, isTransition_eq_ok_true.mpr ⟨asked, taken⟩⟩

theorem run_of_isTransition (moves : p.isTransition s call mid = .ok true)
    (rest : List (Except Error Text.Call)) :
    p.run s (Text.Call.read call :: rest) = p.run mid rest := by
  obtain ⟨asked, taken⟩ := isTransition_eq_ok_true.mp moves
  rw [run_read_cons, asked, taken]
  rfl

theorem run_of_stopsWith {answer : Except Error Bool} (stops : p.StopsWith s call answer)
    (rest : List (Except Error Text.Call)) :
    p.run s (Text.Call.read call :: rest) = answer := by
  rw [run_read_cons]
  cases stops with
  | inapplicable asked => rw [asked]; rfl
  | undecided asked => rw [asked]; rfl
  | failing asked taken => rw [asked, taken]; rfl

theorem Leads.run_append (leads : p.Leads s before mid) (rest : List (Except Error Text.Call)) :
    p.run s (before.map Text.Call.read ++ rest) = p.run mid rest := by
  induction leads with
  | nil s => rfl
  | cons moves _ ih => rw [List.map_cons, List.cons_append, run_of_isTransition moves, ih]

/-- The answer comes from the goal after a whole chain of transitions, or from the call that stops
the first such chain that cannot be continued. -/
theorem run_eq_iff {answer : Except Error Bool} : p.run s (calls.map Text.Call.read) = answer ↔
    (∃ last, p.Leads s calls last ∧ p.isGoal last = answer) ∨
      ∃ before call after mid, calls = before ++ call :: after ∧ p.Leads s before mid ∧
        p.StopsWith mid call answer := by
  constructor
  · intro ran
    induction calls generalizing s with
    | nil => exact .inl ⟨s, .nil s, ran⟩
    | cons call calls ih =>
      rw [List.map_cons] at ran
      obtain ⟨mid, moves⟩ | ⟨answer', stops⟩ := p.isTransition_or_stopsWith s call
      · rw [run_of_isTransition moves] at ran
        obtain ⟨last, leads, goal⟩ | ⟨before, call', after, t, rfl, leads, stops⟩ := ih ran
        · exact .inl ⟨last, .cons moves leads, goal⟩
        · exact .inr ⟨call :: before, call', after, t, rfl, .cons moves leads, stops⟩
      · rw [run_of_stopsWith stops] at ran
        exact .inr ⟨[], call, calls, s, rfl, .nil s, ran ▸ stops⟩
  · rintro (⟨last, leads, goal⟩ | ⟨before, call, after, mid, rfl, leads, stops⟩)
    · rw [← List.append_nil (calls.map _), leads.run_append, run, goal]
    · rw [List.map_append, leads.run_append, List.map_cons, run_of_stopsWith stops]

theorem isPlanText_eq {text : String} {plan : List Text.Call}
    (found : Text.Call.readPlan text = .ok plan) :
    p.isPlanText text = p.isPlan (plan.map fun c => spaced c.name c.arguments) := by
  have same : plan.map Except.ok =
      (plan.map fun c => spaced c.name c.arguments).map Text.Call.read := by
    rw [List.map_map]
    refine List.map_congr_left fun c hc => ?_
    exact (Text.Call.read_spaced (Text.Call.readable_of_readPlan found c hc)).symm
  rw [isPlanText, isPlan, found, ← same]
  rfl

/-- Plan validation is a fold of single transitions. -/
theorem isPlan_eq_fold (p : Problem) :
    (∀ calls, p.isPlan calls = .ok true ↔
      ∃ last, p.Leads p.initial calls last ∧ p.isGoal last = .ok true) ∧
    (∀ calls, p.isPlan calls = .ok false ↔
      (∃ before call after s, calls = before ++ call :: after ∧ p.Leads p.initial before s ∧
        p.isApplicable s call = .ok false) ∨
      ∃ last, p.Leads p.initial calls last ∧ p.isGoal last = .ok false) ∧
    (∀ before call s answer, p.Leads p.initial before s → p.StopsWith s call answer →
      ∀ after, p.isPlan (before ++ call :: after) = answer) ∧
    ∀ text plan, Text.Call.readPlan text = .ok plan →
      p.isPlanText text = p.isPlan (plan.map fun c => spaced c.name c.arguments) := by
  refine ⟨fun calls => ?_, fun calls => ?_, ?_, fun text plan found => isPlanText_eq found⟩
  · rw [isPlan, run_eq_iff]
    simp [stopsWith_ok]
  · rw [isPlan, run_eq_iff, or_comm]
    simp only [stopsWith_ok, true_and]
  · intro before call s answer leads stops after
    exact run_eq_iff.mpr (.inr ⟨before, call, after, s, rfl, leads, stops⟩)

end Problem
end TypedPlanning
