import TypedPlanning.Proofs.Provenance
import TypedPlanning.Proofs.Saturation

/-! What one step of a problem can change. An action changes what its effects say, and the closing
after it only adds instances of heads. So facts over predicates without a rule change by the effects
alone, and the state that comes out is closed, whether or not the one that went in was. -/

namespace TypedPlanning
open Fallible

namespace Problem
variable {v : Vocabulary} {p : Problem} {domain : Definition.Domain}
  {problem : Definition.Problem} {s s' : State} {a : Action} {arguments : List Object}

theorem apply_eq_ok : p.apply s a arguments = .ok s' ↔
    ∃ d, a.delta p.objects s arguments = .ok d ∧
      ∃ changed, p.close.run (d.apply s) = .ok changed s' := by
  rw [apply, Action.apply, bind_eq_ok]
  simp only [bind_pure_eq_ok, closed_eq_result, Update.result_eq_ok]
  constructor
  · rintro ⟨t, ⟨d, changes, rfl⟩, closes⟩
    exact ⟨d, changes, closes⟩
  · rintro ⟨d, changes, closes⟩
    exact ⟨d.apply s, ⟨d, changes, rfl⟩, closes⟩

/-- The state is closed, and it has come out of the other one by the change and by rules. -/
structure Follows (p : Problem) (d : Delta) (s s' : State) : Prop where
  stable : p.close.run s' = .ok false s'
  added : ∀ f ∈ d.add, f ∈ s'
  kept : ∀ f ∈ s, f ∉ d.delete → f ∈ s'
  framed : ∀ f, (∀ r ∈ p.rules, r.name ≠ f.predicate) →
    (f ∈ s' ↔ f ∈ d.add ∨ f ∈ s ∧ f ∉ d.delete)
  derived : ∀ f ∈ s', f ∉ d.add → ¬ (f ∈ s ∧ f ∉ d.delete) →
    (∃ r ∈ p.rules, r.IsInstance p.objects f) ∧ ∀ o ∈ f.arguments, o ∈ p.objects.objects

namespace MadeFrom
variable (made : MadeFrom domain problem v p)
include made

theorem mem_objects_of_isInstance {r : Rule} (hr : r ∈ p.rules) {f : Fact}
    (derived : r.IsInstance p.objects f) : ∀ o ∈ f.arguments, o ∈ p.objects.objects := by
  rw [made.objects] at derived ⊢
  exact (made.accounted_of_isInstance hr derived).knows.arguments

theorem saturates_of_close {changed : Bool} (closes : p.close.run s = .ok changed s') :
    Rule.Saturates p.objects p.rules s changed s' :=
  Rule.saturates_of_close made.coherent_objects closes

theorem exists_initial_close : ∃ facts changed, problem.initial.mapM v.proposition = .ok facts ∧
    p.close.run (.ofList facts) = .ok changed p.initial := by
  obtain ⟨facts, translated, closed⟩ := made.initial
  rw [← made.objects, Update.result_eq_ok] at closed
  obtain ⟨changed, closes⟩ := closed
  exact ⟨facts, changed, translated, closes⟩

theorem follows_of_close {d : Delta} {changed : Bool}
    (closes : p.close.run (d.apply s) = .ok changed s') : p.Follows d s s' := by
  have saturates := made.saturates_of_close closes
  refine ⟨saturates.stable, fun f hf => ?_, fun f hf spared => ?_, fun f underived => ?_,
    fun f hf fresh gone => ?_⟩
  · exact saturates.above f (Delta.mem_apply.mpr (.inl hf))
  · exact saturates.above f (Delta.mem_apply.mpr (.inr ⟨hf, spared⟩))
  · rw [saturates.mem_iff underived, Delta.mem_apply]
  · have new : f ∉ d.apply s := by
      rw [Delta.mem_apply]
      exact not_or.mpr ⟨fresh, gone⟩
    obtain ⟨r, hr, derived⟩ := (saturates.derived f hf).resolve_left new
    exact ⟨⟨r, hr, derived⟩, made.mem_objects_of_isInstance hr derived⟩

end MadeFrom

/-- The initial state is closed, and so is every state that an action leads to. There all added
facts hold; facts over predicates without a rule are those added and those spared, and what else is
new is an instance of a head over objects of the problem. -/
theorem apply_follows (built : ofDefinitions domain problem = .ok p) :
    p.close.run p.initial = .ok false p.initial ∧
    ∀ (s : State) (a : Action) (arguments : List Object) (s' : State),
      p.apply s a arguments = .ok s' →
        ∃ d, a.delta p.objects s arguments = .ok d ∧ p.Follows d s s' := by
  obtain ⟨v, made⟩ := madeFrom_of_ofDefinitions built
  constructor
  · obtain ⟨facts, changed, -, closes⟩ := made.exists_initial_close
    exact (made.saturates_of_close closes).stable
  · intro s a arguments s' taken
    obtain ⟨d, changes, changed, closes⟩ := apply_eq_ok.mp taken
    exact ⟨d, changes, made.follows_of_close closes⟩

/-- A switch that is turned on lights the bulb, which no effect does. -/
theorem apply_follows_lamps : ∃ p, ofDefinitions lampDomain lampProblem = .ok p ∧
    p.close.run p.initial = .ok false p.initial ∧
    ∃ a s' d, p.apply p.initial a [⟨"left", "switch"⟩] = .ok s' ∧
      a.delta p.objects p.initial [⟨"left", "switch"⟩] = .ok d ∧ p.Follows d p.initial s' ∧
      ⟨"lit", [⟨"bulb", "lamp"⟩]⟩ ∈ s' ∧ ⟨"lit", [⟨"bulb", "lamp"⟩]⟩ ∉ p.initial := by
  have built : ∃ p, ofDefinitions lampDomain lampProblem = .ok p ∧
      (p.actions.toList.any fun a =>
        (p.apply p.initial a [⟨"left", "switch"⟩]).toOption.any fun s' =>
          decide (⟨"lit", [⟨"bulb", "lamp"⟩]⟩ ∈ s')) = true ∧
      ⟨"lit", [⟨"bulb", "lamp"⟩]⟩ ∉ p.initial := by
    refine exists_ok_and ?_
    decide +kernel
  obtain ⟨p, built, toggled, dark⟩ := built
  obtain ⟨a, -, toggled⟩ := List.any_eq_true.mp toggled
  obtain ⟨s', taken, lit⟩ := exists_ok_and toggled
  obtain ⟨closed, follows⟩ := apply_follows built
  obtain ⟨d, changes, law⟩ := follows p.initial a _ s' taken
  exact ⟨p, built, closed, a, s', d, taken, changes, law, lit, dark⟩

end Problem
end TypedPlanning
