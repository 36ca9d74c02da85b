import TypedPlanning.Proofs.Closing
import Mathlib.Data.Finset.Card

/-! Sweeps of rules, one after the other. A sweep loses no fact and tells whether it derived a new
one. There are only so many instances of heads, so closing ends with a sweep that derives nothing,
and then no single rule derives anything. -/

namespace TypedPlanning
open Fallible Evaluation

namespace State

/-- A state is below another one if all its facts hold there. -/
instance : PartialOrder State where
  le s t := ∀ p ∈ s, p ∈ t
  le_refl _ _ hp := hp
  le_trans _ _ _ first second p hp := second p (first p hp)
  le_antisymm _ _ first second := ext fun p => ⟨first p, second p⟩

end State

namespace Update
variable {α β : Type} {s s' t : State}

theorem result_eq_ok {x : Update α} : x.result s = .ok s' ↔ ∃ a, x.run s = .ok a s' := by
  rw [result]
  cases x.run s <;> simp

theorem run_bind_eq_ok {x : Update α} {f : α → Update β} {b : β} :
    (x >>= f).run s = .ok b s' ↔ ∃ a t, x.run s = .ok a t ∧ (f a).run t = .ok b s' := by
  rw [EStateM.run_bind]
  cases x.run s <;> simp

theorem run_bind_eq_error {x : Update α} {f : α → Update β} {e : Error} :
    (x >>= f).run s = .error e t ↔
      x.run s = .error e t ∨ ∃ a u, x.run s = .ok a u ∧ (f a).run u = .error e t := by
  rw [EStateM.run_bind]
  cases x.run s <;> simp

theorem run_pure_eq_ok {a b : α} : (pure a : Update α).run s = .ok b s' ↔ b = a ∧ s' = s := by
  rw [EStateM.run_pure, EStateM.Result.ok.injEq, eq_comm, eq_comm (a := s)]

def passes (x : Update α) (s : State) (test : α → State → Bool) : Bool :=
  match x.run s with
  | .ok a t => test a t
  | .error _ _ => false

theorem exists_run_of_passes {x : Update α} {test : α → State → Bool}
    (passed : x.passes s test = true) : ∃ a t, x.run s = .ok a t ∧ test a t = true := by
  rw [passes] at passed
  split at passed
  · exact ⟨_, _, ‹_›, passed⟩
  · cases passed

theorem run_change_eq_ok {f : State → Except Error Delta} {new : Bool} :
    (do let d ← ofExcept (f (← get)); modifyGet d.update : Update Bool).run s = .ok new s' ↔
      ∃ d, f s = .ok d ∧ d.update s = (new, s') := by
  show (ofExcept (f s) >>= fun d => modifyGet d.update : Update Bool).run s = _ ↔ _
  cases f s with
  | error e =>
    show EStateM.Result.error e s = _ ↔ _
    simp
  | ok d =>
    show EStateM.Result.ok (d.update s).1 (d.update s).2 = _ ↔ _
    simp [Prod.ext_iff]

theorem run_change_eq_error {f : State → Except Error Delta} {e : Error} :
    (do let d ← ofExcept (f (← get)); modifyGet d.update : Update Bool).run s = .error e t ↔
      f s = .error e ∧ t = s := by
  show (ofExcept (f s) >>= fun d => modifyGet d.update : Update Bool).run s = _ ↔ _
  cases f s with
  | error e' =>
    show EStateM.Result.error e' s = _ ↔ _
    simp [eq_comm]
  | ok d =>
    show EStateM.Result.ok (d.update s).1 (d.update s).2 = _ ↔ _
    simp

def Grows (x : Update Bool) : Prop :=
  ∀ s new s', x.run s = .ok new s' → s ≤ s' ∧ (new = true ↔ s' ≠ s)

theorem Grows.eq_of_quiet {x : Update Bool} (grows : Grows x) (ran : x.run s = .ok false s') :
    s' = s := by
  have told := (grows s false s' ran).2
  simpa using told

end Update

namespace Action
variable {a : Action} {objects : ObjectTable} {arguments : List Object} {s t : State}

theorem run_update_eq_ok {new : Bool} : (a.update objects arguments).run s = .ok new t ↔
    ∃ d, a.delta objects s arguments = .ok d ∧ d.update s = (new, t) :=
  Update.run_change_eq_ok (f := fun s => a.delta objects s arguments)

theorem run_update_eq_error {e : Error} : (a.update objects arguments).run s = .error e t ↔
    a.delta objects s arguments = .error e ∧ t = s :=
  Update.run_change_eq_error (f := fun s => a.delta objects s arguments)

end Action

namespace Rule
variable {objects : ObjectTable} {r : Rule} {rules : List Rule} {s s' : State} {new : Bool}

theorem run_fire_eq_ok : (r.fire objects).run s = .ok new s' ↔
    ∃ d, (Delta.ofEffects ⟨objects, s⟩ r.effects).outcome .empty = .ok d ∧
      d.update s = (new, s') :=
  Update.run_change_eq_ok (f := fun s => (Delta.ofEffects ⟨objects, s⟩ r.effects).outcome .empty)

theorem run_sweep_cons_eq_ok : (sweep objects (r :: rules)).run s = .ok new s' ↔
    ∃ first t, (r.fire objects).run s = .ok first t ∧
      ∃ later, (sweep objects rules).run t = .ok later s' ∧ new = (later || first) := by
  rw [sweep, Update.run_bind_eq_ok]
  simp only [Update.run_bind_eq_ok, Update.run_pure_eq_ok]
  constructor
  · rintro ⟨first, t, fired, later, _, swept, rfl, rfl⟩
    exact ⟨first, t, fired, later, swept, rfl⟩
  · rintro ⟨first, t, fired, later, swept, rfl⟩
    exact ⟨first, t, fired, later, s', swept, rfl, rfl⟩

theorem grows_fire (coherent : objects.Coherent) (r : Rule) : Update.Grows (r.fire objects) := by
  intro s new s' fired
  constructor
  · intro p hp
    exact (mem_fire coherent (Update.result_eq_ok.mpr ⟨new, fired⟩)).mpr (.inl hp)
  · obtain ⟨d, -, updated⟩ := run_fire_eq_ok.mp fired
    have told := d.fst_update_iff s
    rwa [← Delta.snd_update, updated] at told

theorem grows_sweep (coherent : objects.Coherent) (rules : List Rule) :
    Update.Grows (sweep objects rules) := by
  induction rules with
  | nil =>
    rintro s _ _ ⟨⟩
    simp
  | cons r rules ih =>
    intro s new s' swept
    obtain ⟨first, t, fired, later, rest, rfl⟩ := run_sweep_cons_eq_ok.mp swept
    obtain ⟨below, first_told⟩ := grows_fire coherent r s first t fired
    obtain ⟨above, later_told⟩ := ih t later s' rest
    refine ⟨below.trans above, ?_⟩
    rw [Bool.or_eq_true, later_told, first_told, ← not_and_or, not_iff_not]
    constructor
    · rintro ⟨rfl, rfl⟩
      rfl
    · rintro rfl
      have same : t = s' := le_antisymm above below
      exact ⟨same.symm, same⟩

theorem quiet_fire_of_quiet_sweep (coherent : objects.Coherent)
    (quiet : (sweep objects rules).run s = .ok false s) :
    ∀ r ∈ rules, (r.fire objects).run s = .ok false s := by
  induction rules with
  | nil => simp
  | cons r rules ih =>
    obtain ⟨first, t, fired, later, rest, told⟩ := run_sweep_cons_eq_ok.mp quiet
    obtain ⟨rfl, rfl⟩ := Bool.or_eq_false_iff.mp told.symm
    obtain rfl := (grows_fire coherent r).eq_of_quiet fired
    exact List.forall_mem_cons.mpr ⟨fired, ih rest⟩

/-- Where a rule derives nothing, its head is there for all arguments for which its body holds. -/
theorem mem_of_quiet_fire (coherent : objects.Coherent)
    (quiet : (r.fire objects).run s = .ok false s) {arguments : List Object}
    (admitted : objects.Admits r.parameters arguments)
    (satisfied : r.body.Satisfied ⟨objects, s⟩ (.ofArguments r.parameters arguments)) {p : Fact}
    (denoted : r.head.Denotes (.ofArguments r.parameters arguments) p) : p ∈ s :=
  (mem_fire coherent (Update.result_eq_ok.mpr ⟨false, quiet⟩)).mpr
    (.inr ⟨arguments, admitted, satisfied, denoted⟩)

def headFacts (objects : ObjectTable) (rules : List Rule) : Finset Fact :=
  (rules.flatMap fun r => (Candidates.of objects r.parameters).tuples.filterMap fun arguments =>
    (r.head.ground.outcome (.ofArguments r.parameters arguments)).toOption).toFinset

def missing (objects : ObjectTable) (rules : List Rule) (s : State) : Finset Fact :=
  (headFacts objects rules).filter (· ∉ s)

theorem mem_headFacts (coherent : objects.Coherent) {p : Fact} :
    p ∈ headFacts objects rules ↔ ∃ r ∈ rules, r.IsInstance objects p := by
  have grounded {a : Atom} {g : Assignment} :
      (a.ground.outcome g).toOption = some p ↔ a.Denotes g p := by
    rw [← Atom.outcome_ground_eq_ok]
    cases a.ground.outcome g <;> simp [Except.toOption]
  simp only [headFacts, List.mem_toFinset, List.mem_flatMap, List.mem_filterMap, grounded,
    coherent.mem_tuples_iff, IsInstance]

theorem card_headFacts_le (objects : ObjectTable) (rules : List Rule) :
    (headFacts objects rules).card ≤ instances objects rules := by
  refine (List.toFinset_card_le _).trans ?_
  induction rules with
  | nil => simp
  | cons r rules ih =>
    have one := List.length_filterMap_le (fun arguments =>
      (r.head.ground.outcome (.ofArguments r.parameters arguments)).toOption)
      (Candidates.of objects r.parameters).tuples
    rw [Candidates.length_tuples] at one
    rw [List.flatMap_cons, List.length_append]
    exact Nat.add_le_add one ih

/-- A sweep that derives something leaves fewer facts to derive. -/
theorem card_missing_lt (coherent : objects.Coherent)
    (swept : (sweep objects rules).run s = .ok true s') :
    (missing objects rules s').card < (missing objects rules s).card := by
  obtain ⟨below, told⟩ := grows_sweep coherent rules s true s' swept
  obtain ⟨p, hp, fresh⟩ : ∃ p ∈ s', p ∉ s := by
    by_contra! none_new
    exact told.mp rfl (le_antisymm none_new below)
  have derived := (mem_sweep coherent (Update.result_eq_ok.mpr ⟨true, swept⟩) hp).resolve_left fresh
  refine Finset.card_lt_card ((Finset.ssubset_iff_of_subset ?_).mpr ⟨p, ?_, ?_⟩)
  · exact Finset.monotone_filter_right _ fun q _ still_missing hq => still_missing (below q hq)
  · exact Finset.mem_filter.mpr ⟨(mem_headFacts coherent).mpr derived, fresh⟩
  · exact fun still_missing => (Finset.mem_filter.mp still_missing).2 hp

/-- So many sweeps, each of which derives something new, lead from one state to the other. -/
inductive Productive (objects : ObjectTable) (rules : List Rule) : State → Nat → State → Prop where
  | none (s : State) : Productive objects rules s 0 s
  | cons {s t s' : State} {n : Nat} : (sweep objects rules).run s = .ok true t →
    Productive objects rules t n s' → Productive objects rules s (n + 1) s'

/-- One more sweep is the last: it derives nothing, or it fails. What is told is whether those
before it derived anything. -/
inductive Ends (objects : ObjectTable) (rules : List Rule) (s : State) (new : Bool) :
    EStateM.Result Error State Bool → Prop where
  | quiet : (sweep objects rules).run s = .ok false s → Ends objects rules s new (.ok new s)
  | failed {e : Error} {t : State} : (sweep objects rules).run s = .error e t →
    Ends objects rules s new (.error e t)

/-- Sweeping goes on while something new is derived, and then it ends with one more sweep. A bound
that leaves room for all missing facts makes no difference. -/
theorem exists_productive_sweeps (coherent : objects.Coherent) {bound : Nat}
    (enough : (missing objects rules s).card < bound) :
    ∃ n t, Productive objects rules s n t ∧
      Ends objects rules t (decide (0 < n)) ((sweeps objects rules bound).run s) := by
  induction bound generalizing s with
  | zero => exact absurd enough (Nat.not_lt_zero _)
  | succ bound ih =>
    rw [sweeps, EStateM.run_bind]
    cases swept : (sweep objects rules).run s with
    | error e t => exact ⟨0, s, .none s, .failed swept⟩
    | ok new t =>
      cases new with
      | false =>
        obtain rfl := (grows_sweep coherent rules).eq_of_quiet swept
        exact ⟨0, t, .none t, .quiet swept⟩
      | true =>
        have fewer := card_missing_lt coherent swept
        obtain ⟨n, u, productive, ends⟩ := ih (s := t) (by omega)
        refine ⟨n + 1, u, .cons swept productive, ?_⟩
        show Ends objects rules u _
          ((sweeps objects rules bound >>= fun _ => pure true : Update Bool).run t)
        rw [EStateM.run_bind]
        generalize (sweeps objects rules bound).run t = outcome at ends
        cases ends with
        | quiet swept => exact .quiet swept
        | failed swept => exact .failed swept

theorem exists_productive_close (coherent : objects.Coherent) (rules : List Rule) (s : State) :
    ∃ n t, Productive objects rules s n t ∧
      Ends objects rules t (decide (0 < n)) ((close objects rules).run s) := by
  refine exists_productive_sweeps coherent (Nat.lt_succ_of_le ?_)
  exact (Finset.card_filter_le _ _).trans (card_headFacts_le objects rules)

theorem quiet_of_close (coherent : objects.Coherent)
    (done : (close objects rules).run s = .ok new s') :
    (sweep objects rules).run s' = .ok false s' := by
  obtain ⟨n, t, -, ends⟩ := exists_productive_close coherent rules s
  rw [done] at ends
  obtain ⟨quiet⟩ := ends
  exact quiet

theorem close_of_quiet (quiet : (sweep objects rules).run s = .ok false s) :
    (close objects rules).run s = .ok false s := by
  rw [close, sweeps, EStateM.run_bind, quiet]
  rfl

/-- The rule takes no variable from outside, and everything in its body can be decided. -/
structure Ready (r : Rule) : Prop where
  bound : r.body.free ++ r.head.free ⊆ r.parameters.map Parameter.variableName
  decidable : r.body.features = []

theorem Ready.failsOnly_fire (ready : r.Ready) (s : State) :
    FailsOnly (fun _ => False) ((r.fire objects).result s) := by
  refine (Rule.failsOnly_fire ready.bound s).mono ?_
  rintro _ ⟨feature, found, -⟩
  rw [ready.decidable] at found
  cases found

theorem exists_close (coherent : objects.Coherent) (ready : ∀ r ∈ rules, r.Ready) (s : State) :
    ∃ changed s', (close objects rules).run s = .ok changed s' ∧
      (sweep objects rules).run s' = .ok false s' := by
  obtain ⟨s', closed⟩ := exists_ok (failsOnly_close (fun r hr => (ready r hr).failsOnly_fire) s)
  obtain ⟨changed, done⟩ := Update.result_eq_ok.mp closed
  exact ⟨changed, s', done, quiet_of_close coherent done⟩

/-- A sweep fires every rule, so none of those that have been swept can fail to be decided. -/
theorem features_eq_nil_of_sweep (swept : (sweep objects rules).run s = .ok new s') :
    ∀ r ∈ rules, r.body.features = [] := by
  induction rules generalizing s new with
  | nil => simp
  | cons r rules ih =>
    obtain ⟨first, t, fired, later, rest, -⟩ := run_sweep_cons_eq_ok.mp swept
    obtain ⟨d, gathered, -⟩ := run_fire_eq_ok.mp fired
    have none_found := Delta.featuresIn_eq_nil_of_ofEffects gathered
    simp only [effects, Effect.featuresIn, Effect.features, List.append_nil] at none_found
    exact List.forall_mem_cons.mpr ⟨none_found, ih rest⟩

theorem features_eq_nil_of_close (closed : (close objects rules).result s = .ok s') :
    ∀ r ∈ rules, r.body.features = [] := by
  obtain ⟨changed, done⟩ := Update.result_eq_ok.mp closed
  rw [close, sweeps] at done
  obtain ⟨first, t, swept, -⟩ := Update.run_bind_eq_ok.mp done
  exact features_eq_nil_of_sweep swept

end Rule
end TypedPlanning
