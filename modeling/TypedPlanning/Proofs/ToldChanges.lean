import TypedPlanning.Proofs.Simultaneity
import TypedPlanning.Proofs.StepLaw

/-! What is told about a step that is made in place. The step is told to have changed the state
whenever it has; but it is told so too where the rules have put back all that the effects had taken
out. No rule puts back a fact over a predicate without a rule, so an action that only deletes such
facts is told about exactly. -/

namespace TypedPlanning
open Fallible

def Delta.Loses (d : Delta) (s : State) : Prop := ∃ f ∈ s, f ∈ d.delete ∧ f ∉ d.add

theorem Delta.le_apply_iff {d : Delta} {s : State} : s ≤ d.apply s ↔ ¬ d.Loses s := by
  constructor
  · rintro above ⟨f, hf, deleted, fresh⟩
    exact (mem_apply.mp (above f hf)).elim fresh fun spared => spared.2 deleted
  · intro loses f hf
    by_cases deleted : f ∈ d.delete
    · refine mem_apply.mpr (.inl (Classical.byContradiction fun fresh => ?_))
      exact loses ⟨f, hf, deleted, fresh⟩
    · exact mem_apply.mpr (.inr ⟨hf, deleted⟩)

theorem Action.exists_leaf_of_delta {objects : ObjectTable} (coherent : objects.Coherent)
    {a : Action} {arguments : List Object} {s : State} {d : Delta}
    (changes : a.delta objects s arguments = .ok d) {f : Fact} (deleted : f ∈ d.delete) :
    ∃ b, Effect.Leaf.delete b ∈ Effect.leavesIn a.effects ∧ f.predicate = b.predicate := by
  rw [delta] at changes
  obtain ⟨g, -, gathered⟩ := bind_eq_ok.mp changes
  have sets := Delta.sets_ofEffects coherent gathered
  have deleted : f ∈ d.sets.2 := deleted
  simp only [sets, Effect.changeIn_eq_iSup, mem_snd_iSup] at deleted
  obtain ⟨e, he, deleted⟩ := deleted
  obtain ⟨b, g', way, denoted⟩ := e.mem_change_iff.2.mp deleted
  exact ⟨b, Effect.mem_leavesIn.mpr ⟨e, he, way.mem_leaves⟩, denoted.1⟩

namespace Problem
variable {p : Problem} {domain : Definition.Domain} {problem : Definition.Problem}
  {a : Action} {arguments : List Object} {s s' : State} {changed : Bool}

/-- What is told about a step is what is told about its change or about the closing after it. -/
theorem run_update_eq_ok : (p.update a arguments).run s = .ok changed s' ↔
    ∃ d, a.delta p.objects s arguments = .ok d ∧
      ∃ closed, p.close.run (d.apply s) = .ok closed s' ∧ changed = (closed || (d.update s).1) := by
  rw [update, Update.run_bind_eq_ok]
  simp only [Update.run_bind_eq_ok, Update.run_pure_eq_ok, Action.run_update_eq_ok]
  constructor
  · rintro ⟨_, _, ⟨d, changes, updated⟩, closed, _, closes, rfl, rfl⟩
    refine ⟨d, changes, closed, ?_, by rw [updated]⟩
    rw [← Delta.snd_update, updated]
    exact closes
  · rintro ⟨d, changes, closed, closes, rfl⟩
    refine ⟨_, d.apply s, ⟨d, changes, ?_⟩, closed, s', closes, rfl, rfl⟩
    rw [← Delta.snd_update]

/-- A step in place is told to have changed the state exactly if the state is another one or has
lost a fact on the way. So what is told is right unless the rules put back what has been lost, and
always for an action that deletes no fact over a predicate with a rule. -/
theorem update_told_iff (built : ofDefinitions domain problem = .ok p)
    (taken : (p.update a arguments).run s = .ok changed s') :
    ∃ d, a.delta p.objects s arguments = .ok d ∧
      (changed = true ↔ s' ≠ s ∨ d.Loses s) ∧
      ((changed = true ↔ s' ≠ s) ↔ ¬ (s' = s ∧ d.Loses s)) ∧
      ((∀ b, .delete b ∈ Effect.leavesIn a.effects → ∀ r ∈ p.rules, r.name ≠ b.predicate) →
        (changed = true ↔ s' ≠ s)) := by
  obtain ⟨v, made⟩ := madeFrom_of_ofDefinitions built
  obtain ⟨d, changes, closed, closes, rfl⟩ := run_update_eq_ok.mp taken
  have saturates := made.saturates_of_close closes
  have told : (closed || (d.update s).1) = true ↔ s' ≠ s ∨ d.Loses s := by
    rw [Bool.or_eq_true, saturates.told, Delta.fst_update_iff]
    constructor
    · intro moved
      by_contra still
      obtain ⟨same, spared⟩ := not_or.mp still
      obtain rfl : s' = s := not_not.mp same
      -- nothing is lost by the change, and the closing only adds: all three states are one
      have between : d.apply s' = s' :=
        le_antisymm saturates.above (Delta.le_apply_iff.mpr spared)
      exact moved.elim (fun other => other between.symm) fun other => other between
    · rintro (other | loses)
      · by_cases between : d.apply s = s
        · exact .inl (between.symm ▸ other)
        · exact .inr between
      · exact .inr fun between => Delta.le_apply_iff.mp between.ge loses
  refine ⟨d, changes, told, ?_, fun underived => ?_⟩
  · rw [told]
    tauto
  · rw [told]
    refine or_iff_left_of_imp ?_
    rintro ⟨f, hf, deleted, fresh⟩ rfl
    obtain ⟨b, leaf, same⟩ := Action.exists_leaf_of_delta made.coherent_objects changes deleted
    have gone := (saturates.mem_iff fun r hr => same ▸ underived b leaf r hr).mp hf
    exact (Delta.mem_apply.mp gone).elim fresh fun spared => spared.2 deleted

/-- A switch that is turned on is told about. What toggling deletes is never derived. -/
theorem update_told_iff_lamps : ∃ p, ofDefinitions lampDomain lampProblem = .ok p ∧
    ∃ a s', (p.update a [⟨"left", "switch"⟩]).run p.initial = .ok true s' ∧
      (∀ b, .delete b ∈ Effect.leavesIn a.effects → ∀ r ∈ p.rules, r.name ≠ b.predicate) ∧
      s' ≠ p.initial := by
  have built : ∃ p, ofDefinitions lampDomain lampProblem = .ok p ∧
      (∀ r ∈ p.rules, r.name ≠ "on") ∧
      (p.actions.toList.any fun a =>
        decide (Effect.leavesIn a.effects = [.delete ⟨"on", [.variableNamed "?s"]⟩,
          .add ⟨"on", [.variableNamed "?s"]⟩]) &&
        (p.update a [⟨"left", "switch"⟩]).passes p.initial fun changed _ => changed) = true := by
    refine exists_ok_and ?_
    decide +kernel
  obtain ⟨p, built, underived, toggled⟩ := built
  obtain ⟨a, -, toggled⟩ := List.any_eq_true.mp toggled
  obtain ⟨leaves, passed⟩ := Bool.and_eq_true_iff.mp toggled
  obtain ⟨changed, s', taken, rfl⟩ := Update.exists_run_of_passes passed
  have spared (b : Atom) (leaf : .delete b ∈ Effect.leavesIn a.effects) :
      ∀ r ∈ p.rules, r.name ≠ b.predicate := by
    rw [of_decide_eq_true leaves] at leaf
    obtain rfl : b = ⟨"on", [.variableNamed "?s"]⟩ := by simpa using leaf
    exact underived
  obtain ⟨d, -, -, -, exactly⟩ := update_told_iff built taken
  exact ⟨p, built, a, s', taken, spared, (exactly spared).mp rfl⟩

/-- A door can be passed when it is open, and blocking it does not close it. -/
def doorDomain : Definition.Domain where
  name := "doors"
  predicates := [⟨"open", [⟨"?d", "object"⟩]⟩, ⟨"passable", [⟨"?d", "object"⟩]⟩]
  actions := [⟨"block", [⟨"?d", "object"⟩], .and [],
    .delete ⟨"passable", [.variableNamed "?d"]⟩⟩]
  derived := [⟨⟨"passable", [⟨"?d", "object"⟩]⟩, .atom ⟨"open", [.variableNamed "?d"]⟩⟩]

def doorProblem : Definition.Problem where
  name := "hall"
  domainName := "doors"
  objects := [⟨"front", "object"⟩]
  initial := [⟨"open", [.name "front"]⟩]

/-- Blocking an open door is told to have changed the state, which is the same as before. -/
theorem update_told_unchanged_doors : ∃ p, ofDefinitions doorDomain doorProblem = .ok p ∧
    ∃ a ∈ p.actions.toList,
      (p.update a [⟨"front", "object"⟩]).run p.initial = .ok true p.initial := by
  have built : ∃ p, ofDefinitions doorDomain doorProblem = .ok p ∧
      (p.actions.toList.any fun a => (p.update a [⟨"front", "object"⟩]).passes p.initial
        fun changed s' => changed && s'.toList == p.initial.toList) = true := by
    refine exists_ok_and ?_
    decide +kernel
  obtain ⟨p, built, blocked⟩ := built
  obtain ⟨a, ha, blocked⟩ := List.any_eq_true.mp blocked
  obtain ⟨changed, s', taken, passed⟩ := Update.exists_run_of_passes blocked
  obtain ⟨rfl, same⟩ := Bool.and_eq_true_iff.mp passed
  obtain rfl : s' = p.initial := Std.ExtTreeSet.toList_inj.mp (beq_iff_eq.mp same)
  exact ⟨p, built, a, ha, taken⟩

end Problem
end TypedPlanning
