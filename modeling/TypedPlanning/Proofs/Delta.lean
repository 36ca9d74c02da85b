import TypedPlanning.Effect
import Mathlib.Tactic.Tauto

/-! What a change does to a state, fact by fact. Making the change in one step and making it one
fact after the other lead to the same state. -/

namespace TypedPlanning
namespace State

theorem mem_insert {s : State} {p q : Fact} : q ∈ s.insert p ↔ q = p ∨ q ∈ s := by
  rw [Std.ExtTreeSet.mem_insert, Std.LawfulEqCmp.compare_eq_iff_eq, eq_comm]

theorem mem_erase {s : State} {p q : Fact} : q ∈ s.erase p ↔ q ≠ p ∧ q ∈ s := by
  rw [Std.ExtTreeSet.mem_erase, ne_eq, Std.LawfulEqCmp.compare_eq_iff_eq, eq_comm]

theorem mem_ofList {ps : List Fact} {p : Fact} :
    p ∈ (Std.ExtTreeSet.ofList ps : State) ↔ p ∈ ps := by
  simp [Std.ExtTreeSet.mem_ofList]

end State

namespace Delta

@[simp] theorem mem_apply {d : Delta} {s : State} {p : Fact} :
    p ∈ d.apply s ↔ p ∈ d.add ∨ p ∈ s ∧ p ∉ d.delete := by
  simp [apply, Std.ExtTreeSet.mem_union_iff, Std.ExtTreeSet.mem_diff_iff, or_comm]

theorem mem_retract {ps : List Fact} {s : State} {p : Fact} :
    p ∈ (retract ps s).2 ↔ p ∈ s ∧ p ∉ ps := by
  induction ps generalizing s with
  | nil => simp [retract]
  | cons q ps ih =>
    simp only [retract, ih, State.mem_erase, List.mem_cons]
    tauto

theorem mem_assert {ps : List Fact} {s : State} {p : Fact} :
    p ∈ (assert ps s).2 ↔ p ∈ s ∨ p ∈ ps := by
  induction ps generalizing s with
  | nil => simp [assert]
  | cons q ps ih =>
    simp only [assert, ih, State.mem_insert, List.mem_cons]
    tauto

theorem fst_retract {ps : List Fact} {s : State} :
    (retract ps s).1 = true ↔ ∃ p ∈ ps, p ∈ s := by
  induction ps generalizing s with
  | nil => simp [retract]
  | cons q ps ih =>
    simp only [retract, Bool.or_eq_true, Std.ExtTreeSet.contains_iff_mem, ih, State.mem_erase,
      List.mem_cons, exists_eq_or_imp]
    constructor
    · rintro (here | ⟨p, hp, -, there⟩)
      · exact .inl here
      · exact .inr ⟨p, hp, there⟩
    · rintro (here | ⟨p, hp, there⟩)
      · exact .inl here
      · by_cases same : p = q
        · exact .inl (same ▸ there)
        · exact .inr ⟨p, hp, same, there⟩

theorem fst_assert {ps : List Fact} {s : State} :
    (assert ps s).1 = true ↔ ∃ p ∈ ps, p ∉ s := by
  induction ps generalizing s with
  | nil => simp [assert]
  | cons q ps ih =>
    simp only [assert, Bool.or_eq_true, Bool.not_eq_true', ← Bool.not_eq_true,
      Std.ExtTreeSet.contains_iff_mem, ih, State.mem_insert, not_or, List.mem_cons,
      exists_eq_or_imp]
    constructor
    · rintro (here | ⟨p, hp, -, there⟩)
      · exact .inl here
      · exact .inr ⟨p, hp, there⟩
    · rintro (here | ⟨p, hp, there⟩)
      · exact .inl here
      · by_cases same : p = q
        · exact .inl (same ▸ there)
        · exact .inr ⟨p, hp, same, there⟩

/-- A fact that is both deleted and added is never taken out, and it is there in the end. -/
@[simp] theorem snd_update (d : Delta) (s : State) : (d.update s).2 = d.apply s := by
  apply State.ext
  intro p
  have added : p ∈ d.add.toList ↔ p ∈ d.add := Std.ExtTreeSet.mem_toList
  have lost : p ∈ (d.delete \ d.add).toList ↔ p ∈ d.delete ∧ p ∉ d.add := by
    rw [Std.ExtTreeSet.mem_toList, Std.ExtTreeSet.mem_diff_iff]
  simp only [update, mem_assert, mem_retract, mem_apply, added, lost]
  tauto

theorem fst_update_iff (d : Delta) (s : State) : (d.update s).1 = true ↔ d.apply s ≠ s := by
  have added : ∀ p, p ∈ d.add.toList ↔ p ∈ d.add := fun p => Std.ExtTreeSet.mem_toList
  have lost : ∀ p, p ∈ (d.delete \ d.add).toList ↔ p ∈ d.delete ∧ p ∉ d.add := fun p => by
    rw [Std.ExtTreeSet.mem_toList, Std.ExtTreeSet.mem_diff_iff]
  simp only [update, Bool.or_eq_true, fst_retract, fst_assert, mem_retract, added, lost]
  constructor
  · rintro (⟨p, ⟨deleted, kept⟩, there⟩ | ⟨p, new, missing⟩) same
    · rw [← same, mem_apply] at there
      tauto
    · have there : p ∈ s := by
        rw [← same, mem_apply]
        exact .inl new
      tauto
  · intro other
    refine Classical.byContradiction fun unchanged => other (State.ext fun p => ?_)
    obtain ⟨none_lost, none_gained⟩ := not_or.mp unchanged
    have not_lost := not_exists.mp none_lost p
    have not_gained := not_exists.mp none_gained p
    rw [mem_apply]
    tauto

end Delta
end TypedPlanning
