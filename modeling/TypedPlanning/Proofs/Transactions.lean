import TypedPlanning.Proofs.PlanRuns
import TypedPlanning.Proofs.Provenance
import TypedPlanning.Proofs.Sweeps

/-! Actions that are taken in a current state are taken as a whole or not at all. The rules of a
problem cannot fail: making the problem has closed its first facts under them, which goes through
every rule, and the variables of a rule are its own. So an action can fail only before anything has
been changed. -/

namespace TypedPlanning
open Fallible

namespace Problem
variable {v : Vocabulary} {p : Problem} {domain : Definition.Domain}
  {problem : Definition.Problem}

/-- The initial closing has found nothing in a rule that cannot be decided, also where no fact was
there to derive anything from. -/
theorem MadeFrom.ready (made : MadeFrom domain problem v p) : ∀ r ∈ p.rules, r.Ready := by
  intro r hr
  obtain ⟨facts, -, closed⟩ := made.initial
  have decidable := Rule.features_eq_nil_of_close closed r hr
  obtain hr | hr := List.mem_append.mp hr
  · obtain ⟨d, -, translated⟩ :=
      exists_of_mem_right (mapM_eq_ok.mp made.derived) hr
    exact ⟨(Vocabulary.closed_of_derivedRule translated).1, decidable⟩
  · obtain ⟨a, -, translated⟩ :=
      exists_of_mem_right (mapM_eq_ok.mp made.axioms) hr
    exact ⟨(Vocabulary.closed_of_rule translated).1, decidable⟩

theorem MadeFrom.exists_close (made : MadeFrom domain problem v p) (s : State) :
    ∃ changed s', p.close.run s = .ok changed s' ∧
      (Rule.sweep p.objects p.rules).run s' = .ok false s' := by
  rw [close, made.objects]
  exact Rule.exists_close made.coherent made.ready s

theorem MadeFrom.eq_of_run_update_eq_error (made : MadeFrom domain problem v p) {a : Action}
    {arguments : List Object} {s t : State} {e : Error}
    (failed : (p.update a arguments).run s = .error e t) : t = s := by
  rw [update, Update.run_bind_eq_error] at failed
  obtain failed | ⟨changed, u, -, failed⟩ := failed
  · exact (Action.run_update_eq_error.mp failed).2
  · obtain ⟨closed, u', done, -⟩ := made.exists_close u
    rw [Update.run_bind_eq_error, done] at failed
    obtain failed | ⟨_, _, -, failed⟩ := failed <;> cases failed

/-- Taking an action in a current state succeeds where it succeeds on a value, with the state that
comes out there. Where it fails it gives the same error, and the state is left as it was. The rules,
which come after the action, never fail: closing ends in a state that no rule adds to. -/
theorem update_all_or_nothing (built : ofDefinitions domain problem = .ok p) :
    (∀ s, ∃ changed s', p.close.run s = .ok changed s' ∧
      (Rule.sweep p.objects p.rules).run s' = .ok false s') ∧
    ∀ (a : Action) (arguments : List Object) (s : State),
      (∀ s', (∃ changed, (p.update a arguments).run s = .ok changed s') ↔
        p.apply s a arguments = .ok s') ∧
      ∀ e t, (p.update a arguments).run s = .error e t ↔
        p.apply s a arguments = .error e ∧ t = s := by
  obtain ⟨v, made⟩ := madeFrom_of_ofDefinitions built
  refine ⟨made.exists_close, fun a arguments s => ⟨fun s' => ?_, fun e t => ⟨fun failed => ?_, ?_⟩⟩⟩
  · rw [← result_update, Update.result_eq_ok]
  · refine ⟨?_, made.eq_of_run_update_eq_error failed⟩
    rw [← result_update, Update.result, failed]
  · rintro ⟨failed, rfl⟩
    rw [← result_update, Update.result] at failed
    cases ran : (p.update a arguments).run t with
    | ok changed s' =>
      rw [ran] at failed
      cases failed
    | error e' t' =>
      rw [ran] at failed
      obtain rfl := Except.error.inj failed
      rw [made.eq_of_run_update_eq_error ran]

/-- A lamp cannot be toggled like a switch, and trying to leaves the state alone. -/
theorem update_all_or_nothing_lamps : ∃ p, ofDefinitions lampDomain lampProblem = .ok p ∧
    (∀ s, ∃ changed s', p.close.run s = .ok changed s') ∧
    ∃ a ∈ p.actions.toList, ∀ s, (p.update a [⟨"bulb", "lamp"⟩]).run s =
      .error (.argumentType "?s" "switch" "bulb" "lamp") s := by
  have built : ∃ p, ofDefinitions lampDomain lampProblem = .ok p ∧ p.actions.toList.any (fun a =>
      decide ((a.assign p.objects [⟨"bulb", "lamp"⟩]).map Assignment.bindings =
        .error (.argumentType "?s" "switch" "bulb" "lamp"))) = true := by
    refine exists_ok_and ?_
    decide +kernel
  obtain ⟨p, built, refused⟩ := built
  obtain ⟨a, ha, refused⟩ := List.any_eq_true.mp refused
  obtain ⟨closes, transaction⟩ := update_all_or_nothing built
  refine ⟨p, built, fun s => ?_, a, ha, fun s => ?_⟩
  · obtain ⟨changed, s', done, -⟩ := closes s
    exact ⟨changed, s', done⟩
  · refine ((transaction a [⟨"bulb", "lamp"⟩] s).2 _ s).mpr ⟨?_, rfl⟩
    have refused := (map_eq_error Assignment.bindings).mp (of_decide_eq_true refused)
    rw [apply, Action.apply, Action.delta, refused]
    rfl

end Problem
end TypedPlanning
