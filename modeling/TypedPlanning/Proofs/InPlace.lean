import TypedPlanning.Proofs.Sweeps

/-! Changes that are made in place, one fact after the other. They lead to the state that the two
sets of facts describe, what is told about them is whether that is another state, and a change that
has been made has nothing left to do. An action that is taken in place does so with its own change,
or fails before the first fact is touched. -/

namespace TypedPlanning
namespace Delta

theorem apply_apply (d : Delta) (s : State) : d.apply (d.apply s) = d.apply s := by
  apply State.ext
  intro p
  rw [mem_apply, mem_apply]
  tauto

theorem update_of_apply_eq {d : Delta} {s : State} (same : d.apply s = s) :
    d.update s = (false, s) := by
  have quiet : (d.update s).1 = false := by
    rw [← Bool.not_eq_true, fst_update_iff]
    exact not_not.mpr same
  have stays : (d.update s).2 = s := (snd_update d s).trans same
  exact Prod.ext quiet stays

end Delta

/-- A change in place leaves exactly the facts that are spared or added, tells whether these are
others than before, and does nothing when it is repeated. An action in place makes the change that
it computes for the current state, and where it cannot compute one the state stays what it was. -/
theorem made_in_place :
    (∀ (d : Delta) (s : State),
      (∀ p, p ∈ d.apply s ↔ (p ∈ s ∧ p ∉ d.delete) ∨ p ∈ d.add) ∧
      (∃ told, d.update s = (told, d.apply s) ∧ (told = true ↔ d.apply s ≠ s)) ∧
      d.update (d.apply s) = (false, d.apply s)) ∧
    ∀ (a : Action) (objects : ObjectTable) (arguments : List Object) (s t : State),
      (∀ told, (a.update objects arguments).run s = .ok told t ↔
        ∃ d, a.delta objects s arguments = .ok d ∧ d.update s = (told, t)) ∧
      ∀ e, (a.update objects arguments).run s = .error e t ↔
        a.delta objects s arguments = .error e ∧ t = s := by
  constructor
  · intro d s
    have facts (p : Fact) : p ∈ d.apply s ↔ (p ∈ s ∧ p ∉ d.delete) ∨ p ∈ d.add := by
      rw [Delta.mem_apply, or_comm]
    have made : d.update s = ((d.update s).1, d.apply s) := Prod.ext rfl (d.snd_update s)
    have again : d.update (d.apply s) = (false, d.apply s) :=
      Delta.update_of_apply_eq (d.apply_apply s)
    exact ⟨facts, ⟨_, made, d.fst_update_iff s⟩, again⟩
  · intro a objects arguments s t
    exact ⟨fun told => Action.run_update_eq_ok, fun e => Action.run_update_eq_error⟩

end TypedPlanning
