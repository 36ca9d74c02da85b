import TypedPlanning.Proofs.LeastClosure
import TypedPlanning.Proofs.StepLaw
import TypedPlanning.Proofs.Transactions
import TypedPlanning.Proofs.TypedFacts

/-! Facts that only rules bring in. Rules that never ask for the absence of a fact derive at first
what follows from the other facts, and no more. A step starts from the derived facts that are there
already, and no effect takes them back. Where it deletes what one of them was derived from, and
nothing else supports it, that fact remains. -/

namespace TypedPlanning
open Fallible

namespace Effect

mutual

def predicates : Effect → List String
  | .add a => [a.predicate]
  | .delete a => [a.predicate]
  | .when _ effects => predicatesIn effects
  | .forAll _ effects => predicatesIn effects
  | .unsupported _ => []

def predicatesIn : List Effect → List String
  | [] => []
  | e :: es => e.predicates ++ predicatesIn es

end

@[simp] theorem mem_predicatesIn {name : String} {es : List Effect} :
    name ∈ predicatesIn es ↔ ∃ e ∈ es, name ∈ e.predicates := by
  induction es with
  | nil => simp [predicatesIn]
  | cons e es ih => simp [predicatesIn, ih]

/-- The facts over some predicates, to be added or deleted. -/
def reach (names : List String) : Set Fact × Set Fact :=
  ({f | f.predicate ∈ names}, {f | f.predicate ∈ names})

variable {w : World} {names : List String}

theorem changeIn_le_of_forall {es : List Effect} {g : Assignment}
    (each : ∀ e ∈ es, e.predicates ⊆ names → e.change w g ≤ reach names)
    (within : predicatesIn es ⊆ names) : changeIn w es g ≤ reach names := by
  rw [changeIn_eq_iSup]
  refine iSup₂_le fun e he => each e he fun name hname => ?_
  exact within (mem_predicatesIn.mpr ⟨e, he, hname⟩)

theorem change_le (e : Effect) (g : Assignment) (within : e.predicates ⊆ names) :
    e.change w g ≤ reach names := by
  induction e using Effect.induction generalizing g with
  | add a =>
    refine ⟨fun f denoted => ?_, Set.empty_subset _⟩
    exact within (denoted.1 ▸ List.mem_singleton_self a.predicate)
  | delete a =>
    refine ⟨Set.empty_subset _, fun f denoted => ?_⟩
    exact within (denoted.1 ▸ List.mem_singleton_self a.predicate)
  | when guard effects ih =>
    exact iSup_le fun _ => changeIn_le_of_forall (fun e he => ih e he g) within
  | forAll parameters effects ih =>
    exact iSup₂_le fun arguments _ => changeIn_le_of_forall (fun e he => ih e he _) within
  | unsupported feature => exact bot_le

end Effect

theorem Action.predicate_mem_of_delta {objects : ObjectTable} (coherent : objects.Coherent)
    {a : Action} {arguments : List Object} {s : State} {d : Delta}
    (changes : a.delta objects s arguments = .ok d) {f : Fact}
    (touched : f ∈ d.add ∨ f ∈ d.delete) : f.predicate ∈ Effect.predicatesIn a.effects := by
  rw [delta] at changes
  obtain ⟨g, -, gathered⟩ := bind_eq_ok.mp changes
  have le : d.sets ≤ Effect.reach (Effect.predicatesIn a.effects) := by
    rw [Delta.sets_ofEffects coherent gathered]
    exact Effect.changeIn_le_of_forall (fun e _ => e.change_le g) (List.Subset.refl _)
  obtain added | deleted := touched
  · exact le.1 added
  · exact le.2 deleted

namespace Problem
variable {v : Vocabulary} {p : Problem} {domain : Definition.Domain}
  {problem : Definition.Problem} {names : Set String} {kept s s' t : State}

/-- Facts over this predicate come from rules alone: no first fact has it, and no effect. -/
structure OnlyDerived (p : Problem) (problem : Definition.Problem) (name : String) : Prop where
  initial : ∀ a ∈ problem.initial, a.predicate ≠ name
  effects : ∀ a ∈ p.actions.toList, name ∉ Effect.predicatesIn a.effects

/-- The state `t` respects all rules, and it has the facts of `s` over all but the given predicates
and those of `kept` over the given ones. -/
structure Completes (p : Problem) (names : Set String) (kept s t : State) : Prop where
  others : ∀ f ∈ s, f.predicate ∉ names → f ∈ t
  kept : ∀ f ∈ kept, f.predicate ∈ names → f ∈ t
  respected : ∀ r ∈ p.rules, r.Respected p.objects t

/-- The facts of the state over the given predicates are those of `kept`, and what follows from them
and from its other facts. -/
def Justified (p : Problem) (names : Set String) (kept s : State) : Prop :=
  IsLeast {t | p.Completes names kept s t} s

theorem Completes.drop (completes : p.Completes names kept s t) : p.Completes names ∅ s t :=
  ⟨completes.others, fun _ none => absurd none Std.ExtTreeSet.not_mem_empty, completes.respected⟩

/-- Kept facts need no mention exactly if they follow from the other facts of the state. -/
theorem Justified.drop_iff (justified : p.Justified names kept s) : p.Justified names ∅ s ↔
    ∀ f ∈ kept, f.predicate ∈ names → ∀ t, p.Completes names ∅ s t → f ∈ t := by
  obtain ⟨completes, least⟩ := justified
  constructor
  · rintro ⟨-, least'⟩ f hf listed t completes'
    exact least' completes' f (completes.kept f hf listed)
  · intro follow
    refine ⟨completes.drop, fun t completes' => least ⟨completes'.others, ?_, ?_⟩⟩
    · exact fun f hf listed => follow f hf listed t completes'
    · exact completes'.respected

/-- Closing adds to the derived facts that it starts from no more than what follows. -/
theorem justified_of_close (coherent : p.objects.Coherent) (ready : ∀ r ∈ p.rules, r.Ready)
    (positive : ∀ r ∈ p.rules, r.body.signed true = true) {changed : Bool}
    (closes : p.close.run t = .ok changed s)
    (start : ∀ f, f.predicate ∈ names → (f ∈ t ↔ f ∈ kept)) : p.Justified names kept s := by
  obtain ⟨⟨above, respected⟩, least⟩ := Rule.isLeast_of_close coherent ready positive closes
  constructor
  · exact ⟨fun _ hf _ => hf, fun f hf listed => above f ((start f listed).mpr hf), respected⟩
  · intro u completes
    refine least ⟨fun f hf => ?_, completes.respected⟩
    by_cases listed : f.predicate ∈ names
    · exact completes.kept f ((start f listed).mp hf) listed
    · exact completes.others f (above f hf) listed

namespace MadeFrom
variable (made : MadeFrom domain problem v p)
  (positive : ∀ r ∈ p.rules, r.body.signed true = true)
  (derived : ∀ name ∈ names, p.OnlyDerived problem name)
include made positive derived

theorem justified_initial : p.Justified names ∅ p.initial := by
  obtain ⟨facts, changed, translated, closes⟩ := made.exists_initial_close
  refine justified_of_close made.coherent_objects made.ready positive closes fun f listed => ?_
  refine iff_of_false (fun first => ?_) Std.ExtTreeSet.not_mem_empty
  obtain ⟨a, ha, translated⟩ :=
    exists_of_mem_right (mapM_eq_ok.mp translated) (State.mem_ofList.mp first)
  have agrees := Vocabulary.agrees_ofDefinitions made.vocabulary
  exact (derived _ listed).initial a ha (agrees.denotes_of_proposition translated .empty).1.symm

theorem justified_apply {a : Action} (ha : a ∈ p.actions.toList) {arguments : List Object}
    (taken : p.apply s a arguments = .ok s') : p.Justified names s s' := by
  obtain ⟨d, changes, changed, closes⟩ := apply_eq_ok.mp taken
  refine justified_of_close made.coherent_objects made.ready positive closes fun f listed => ?_
  have untouched : ¬ (f ∈ d.add ∨ f ∈ d.delete) := fun touched =>
    (derived _ listed).effects a ha
      (Action.predicate_mem_of_delta made.coherent_objects changes touched)
  rw [Delta.mem_apply]
  tauto

end MadeFrom

/-- The initial state, and every state that actions lead to without losing a fact over other than
the given predicates on the way. -/
inductive Accrued (p : Problem) (names : Set String) : State → Prop where
  | initial : p.Accrued names p.initial
  | apply {s s' : State} {a : Action} {arguments : List Object} : p.Accrued names s →
    a ∈ p.actions.toList → p.apply s a arguments = .ok s' →
    (∀ f ∈ s, f.predicate ∉ names → f ∈ s') → p.Accrued names s'

/-- What followed from fewer facts follows from more. -/
theorem MadeFrom.justified_of_accrued (made : MadeFrom domain problem v p)
    (positive : ∀ r ∈ p.rules, r.body.signed true = true)
    (derived : ∀ name ∈ names, p.OnlyDerived problem name) (accrued : p.Accrued names s) :
    p.Justified names ∅ s := by
  induction accrued with
  | initial => exact made.justified_initial positive derived
  | @apply s s' a arguments _ ha taken grown ih =>
    refine (made.justified_apply positive derived ha taken).drop_iff.mpr ?_
    intro f hf _ t completes
    refine ih.2 ⟨fun q hq other => ?_, completes.kept, completes.respected⟩ f hf
    exact completes.others q (grown q hq other) other

/-- At first, what only rules bring in is exactly what follows from the other facts. A step keeps
it, so afterwards it is what follows from the other facts and from what there was before. This is
again what follows from the other facts alone exactly if all that was there before still does, as on
a run that never loses a fact over other predicates. -/
theorem derived_facts_justified (built : ofDefinitions domain problem = .ok p)
    (positive : ∀ r ∈ p.rules, r.body.signed true = true)
    (derived : ∀ name ∈ names, p.OnlyDerived problem name) :
    p.Justified names ∅ p.initial ∧
    (∀ (s : State) (a : Action) (arguments : List Object) (s' : State),
      a ∈ p.actions.toList → p.apply s a arguments = .ok s' →
        p.Justified names s s' ∧
        (p.Justified names ∅ s' ↔
          ∀ f ∈ s, f.predicate ∈ names → ∀ t, p.Completes names ∅ s' t → f ∈ t)) ∧
    (∀ s, p.Attained s → p.Completes names ∅ s s) ∧
    ∀ s, p.Accrued names s → p.Justified names ∅ s := by
  obtain ⟨v, made⟩ := madeFrom_of_ofDefinitions built
  refine ⟨made.justified_initial positive derived, fun s a arguments s' ha taken => ?_,
    fun s attained => ?_, fun s => made.justified_of_accrued positive derived⟩
  · have justified := made.justified_apply positive derived ha taken
    exact ⟨justified, justified.drop_iff⟩
  · cases attained with
    | initial => exact (made.justified_initial positive derived).1
    | apply _ ha taken => exact (made.justified_apply positive derived ha taken).1.drop

theorem onlyDerived_lit {p : Problem} (built : ofDefinitions lampDomain lampProblem = .ok p) :
    (∀ r ∈ p.rules, r.body.signed true = true) ∧ (∃ r ∈ p.rules, r.name = "lit") ∧
      p.OnlyDerived lampProblem "lit" := by
  have facts : ∃ p, ofDefinitions lampDomain lampProblem = .ok p ∧
      (∀ r ∈ p.rules, r.body.signed true = true) ∧ (∃ r ∈ p.rules, r.name = "lit") ∧
      ∀ a ∈ p.actions.toList, "lit" ∉ Effect.predicatesIn a.effects := by
    refine exists_ok_and ?_
    decide +kernel
  obtain ⟨p', built', positive, head, effects⟩ := facts
  obtain rfl := Except.ok.inj (built.symm.trans built')
  exact ⟨positive, head, by decide, effects⟩

/-- A bulb that is lit for the first time is lit by a switch. -/
theorem derived_facts_justified_lamps : ∃ p, ofDefinitions lampDomain lampProblem = .ok p ∧
    ∃ s, ⟨"lit", [⟨"bulb", "lamp"⟩]⟩ ∈ s ∧ p.Justified {"lit"} ∅ s := by
  have built : ∃ p, ofDefinitions lampDomain lampProblem = .ok p ∧
      (p.actions.toList.any fun a =>
        (p.apply p.initial a [⟨"left", "switch"⟩]).toOption.any fun s => decide
          (⟨"lit", [⟨"bulb", "lamp"⟩]⟩ ∈ s ∧ ∀ f ∈ p.initial.toList, f ∈ s)) = true := by
    refine exists_ok_and ?_
    decide +kernel
  obtain ⟨p, built, toggled⟩ := built
  obtain ⟨a, ha, toggled⟩ := List.any_eq_true.mp toggled
  obtain ⟨s, taken, lit, grown⟩ := exists_ok_and toggled
  obtain ⟨positive, -, derived⟩ := onlyDerived_lit built
  have each : ∀ name ∈ ({"lit"} : Set String), p.OnlyDerived lampProblem name :=
    fun name same => Set.mem_singleton_iff.mp same ▸ derived
  have accrued : p.Accrued {"lit"} s :=
    .apply .initial ha taken fun f hf _ => grown f (Std.ExtTreeSet.mem_toList.mpr hf)
  obtain ⟨-, -, -, justified⟩ := derived_facts_justified built positive each
  exact ⟨p, built, s, lit, justified s accrued⟩

/-- The bulb stays lit when the switch is turned off again. All other facts are then those of the
initial state, and from these it does not follow that any lamp is lit. -/
theorem derived_facts_outlive_lamps : ∃ p, ofDefinitions lampDomain lampProblem = .ok p ∧
    (∀ r ∈ p.rules, r.body.signed true = true) ∧ (∃ r ∈ p.rules, r.name = "lit") ∧
    p.OnlyDerived lampProblem "lit" ∧ ∃ s, p.Attained s ∧
      ∃ t, IsLeast {t | p.Completes {"lit"} ∅ s t} t ∧
        ⟨"lit", [⟨"bulb", "lamp"⟩]⟩ ∈ s ∧ ⟨"lit", [⟨"bulb", "lamp"⟩]⟩ ∉ t := by
  have built : ∃ p, ofDefinitions lampDomain lampProblem = .ok p ∧
      (p.actions.toList.any fun a =>
        (p.apply p.initial a [⟨"left", "switch"⟩] >>=
          (p.apply · a [⟨"left", "switch"⟩])).toOption.any fun s => decide
            (⟨"lit", [⟨"bulb", "lamp"⟩]⟩ ∈ s ∧
              (∀ f ∈ s.toList, f.predicate ≠ "lit" → f ∈ p.initial) ∧
              ∀ f ∈ p.initial.toList, f.predicate ≠ "lit" ∧ f ∈ s)) = true := by
    refine exists_ok_and ?_
    decide +kernel
  obtain ⟨p, built, toggled⟩ := built
  obtain ⟨a, ha, toggled⟩ := List.any_eq_true.mp toggled
  obtain ⟨s, taken, lit, others, back⟩ := exists_ok_and toggled
  simp only [Std.ExtTreeSet.mem_toList] at others back
  obtain ⟨s₁, once, again⟩ := bind_eq_ok.mp taken
  obtain ⟨positive, head, derived⟩ := onlyDerived_lit built
  obtain ⟨v, made⟩ := madeFrom_of_ofDefinitions built
  have closed : p.Justified ∅ ∅ p.initial := made.justified_initial positive (by simp)
  have least : IsLeast {t | p.Completes {"lit"} ∅ s t} p.initial :=
    ⟨⟨others, fun _ none => absurd none Std.ExtTreeSet.not_mem_empty, closed.1.respected⟩,
      fun t completes f hf => completes.others f (back f hf).2 (back f hf).1⟩
  exact ⟨p, built, positive, head, derived, s, .apply (.apply .initial ha once) ha again,
    p.initial, least, lit, fun first => (back _ first).1 rfl⟩

end Problem
end TypedPlanning
