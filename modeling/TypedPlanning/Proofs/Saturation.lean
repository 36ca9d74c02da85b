import TypedPlanning.Proofs.Sweeps

/-! What closing leaves, and how long it goes on, for rules of any form. A sweep after which another
one follows has derived an instance of a head that was missing, so there are no more of these than
missing instances. The state at the end has nothing more to give to any rule, also where a body has
become false by what was derived from it. -/

namespace TypedPlanning
open Fallible

namespace Rule
variable {objects : ObjectTable} {rules : List Rule} {s s' t : State} {n : Nat} {changed : Bool}

namespace Productive

/-- Each of the sweeps has taken a fact from those that were missing. -/
theorem add_card_missing_le (coherent : objects.Coherent)
    (productive : Productive objects rules s n t) :
    n + (missing objects rules t).card ≤ (missing objects rules s).card := by
  induction productive with
  | none s => rw [Nat.zero_add]
  | cons swept _ ih =>
    have fewer := card_missing_lt coherent swept
    omega

theorem le (coherent : objects.Coherent) (productive : Productive objects rules s n t) :
    s ≤ t := by
  induction productive with
  | none s => exact le_rfl
  | cons swept _ ih => exact (grows_sweep coherent rules _ _ _ swept).1.trans ih

theorem ne_iff (coherent : objects.Coherent) (productive : Productive objects rules s n t) :
    t ≠ s ↔ 0 < n := by
  constructor
  · intro other
    cases productive with
    | none => exact absurd rfl other
    | cons => exact Nat.succ_pos _
  · rintro some_swept rfl
    have fewer := productive.add_card_missing_le coherent
    omega

end Productive

/-- A state that no rule adds to, with what was there before and instances of heads; and what is
told about it. -/
structure Saturates (objects : ObjectTable) (rules : List Rule) (s : State) (changed : Bool)
    (s' : State) : Prop where
  above : s ≤ s'
  derived : ∀ p ∈ s', p ∈ s ∨ ∃ r ∈ rules, r.IsInstance objects p
  told : changed = true ↔ s' ≠ s
  quiet : ∀ r ∈ rules, (r.fire objects).run s' = .ok false s'
  stable : (close objects rules).run s' = .ok false s'

theorem saturates_of_close (coherent : objects.Coherent)
    (done : (close objects rules).run s = .ok changed s') :
    Saturates objects rules s changed s' := by
  obtain ⟨n, t, productive, ends⟩ := exists_productive_close coherent rules s
  rw [done] at ends
  obtain ⟨quiet⟩ := ends
  refine ⟨productive.le coherent, fun p hp => ?_, ?_, ?_, close_of_quiet quiet⟩
  · exact mem_close coherent (Update.result_eq_ok.mpr ⟨_, done⟩) hp
  · rw [productive.ne_iff coherent, decide_eq_true_iff]
  · exact quiet_fire_of_quiet_sweep coherent quiet

theorem Saturates.mem_iff (saturates : Saturates objects rules s changed s') {p : Fact}
    (underived : ∀ r ∈ rules, r.name ≠ p.predicate) : p ∈ s' ↔ p ∈ s := by
  refine ⟨fun hp => (saturates.derived p hp).resolve_right ?_, saturates.above p⟩
  rintro ⟨r, hr, arguments, -, same, -⟩
  exact underived r hr same.symm

/-- Closing sweeps at most once for every missing instance of a head and once more, whatever the
bodies ask for. Where it succeeds, no rule has anything to add to the state that it returns. -/
theorem close_saturates (types : TypeHierarchy) (declared : List Object) (rules : List Rule)
    (s : State) :
    (∃ n t, n ≤ (missing (.ofList types declared) rules s).card ∧
      Productive (.ofList types declared) rules s n t ∧
      Ends (.ofList types declared) rules t (decide (0 < n))
        ((close (.ofList types declared) rules).run s)) ∧
    ∀ changed s', (close (.ofList types declared) rules).run s = .ok changed s' →
      Saturates (.ofList types declared) rules s changed s' := by
  have coherent := ObjectTable.coherent_ofList types declared
  constructor
  · obtain ⟨n, t, productive, ends⟩ := exists_productive_close coherent rules s
    have counted := productive.add_card_missing_le coherent
    exact ⟨n, t, by omega, productive, ends⟩
  · exact fun changed s' => saturates_of_close coherent

/-- A rule whose body is made false by what the rule derives. -/
def spending : List Rule := [⟨[], .not (.atom ⟨"spent", []⟩), ⟨"spent", []⟩⟩]

/-- It derives the fact all the same, once, and has nothing to add to it afterwards. -/
theorem close_saturates_spending : ∃ s', ⟨"spent", []⟩ ∈ s' ∧
    (close (.ofList .initial []) spending).run ∅ = .ok true s' ∧
    Saturates (.ofList .initial []) spending ∅ true s' := by
  have closed : ∃ s', (close (.ofList .initial []) spending).result ∅ = .ok s' ∧
      ⟨"spent", []⟩ ∈ s' := by
    refine exists_ok_and ?_
    decide +kernel
  obtain ⟨s', closed, spent⟩ := closed
  obtain ⟨changed, closes⟩ := Update.result_eq_ok.mp closed
  have saturates := (close_saturates .initial [] spending ∅).2 changed s' closes
  obtain rfl : changed = true := by
    refine saturates.told.mpr fun same => ?_
    rw [same] at spent
    exact Std.ExtTreeSet.not_mem_empty spent
  exact ⟨s', spent, closes, saturates⟩

end Rule
end TypedPlanning
