import TypedPlanning.Proofs.DeclaredTypes
import TypedPlanning.Proofs.Refusals
import Mathlib.Data.List.Find
import Mathlib.Data.List.Perm.Basic

/-! What does not depend on the order of the objects. Quantifiers, effects and rules go through the
objects of a type in the order in which they are listed, and stop as soon as they can. Where all
variables are bound that order makes no difference: what can be decided is decided by its truth, and
what cannot be decided is found before any object is looked at. -/

namespace TypedPlanning
open Fallible Evaluation

namespace ObjectTable

/-- The same objects under the same types, listed in another order. -/
structure Reordered (t t' : ObjectTable) : Prop where
  coherent : t.Coherent
  coherent' : t'.Coherent
  type : ∀ name, t'.types.get? name = t.types.get? name
  get? : ∀ name, t'.get? name = t.get? name
  satisfies : ∀ o type, t'.satisfies o type = t.satisfies o type
  lookup : ∀ type, (t'.lookup type).Perm (t.lookup type)

/-- Objects with different names can be put into a table in any order. -/
theorem reordered_ofList {types types' : TypeHierarchy} (made : types.Made) (made' : types'.Made)
    (declared : ∀ t, t ∈ types'.types ↔ t ∈ types.types)
    (below : ∀ a b, types'.isSubtype a b = types.isSubtype a b) {os os' : List Object}
    (distinct : (os.map Object.name).Nodup) (perm : os'.Perm os) :
    (ofList types os).Reordered (ofList types' os') := by
  have coherent := coherent_ofList types os
  have coherent' := coherent_ofList types' os'
  have get? (name : String) : (ofList types' os').get? name = (ofList types os).get? name := by
    rw [get?_ofList, get?_ofList]
    refine (List.find?_eq_find?_of_perm perm.symm fun o ho o' ho' => ?_).symm
    have same : o.name = o'.name := by rw [beq_iff_eq.mp ho.2, beq_iff_eq.mp ho'.2]
    exact List.inj_on_of_nodup_map distinct ho.1 ho'.1 same
  have satisfies (o : Object) (type : String) :
      (ofList types' os').satisfies o type = (ofList types os).satisfies o type := by
    rw [ObjectTable.satisfies, ObjectTable.satisfies, types_ofList, types_ofList, below]
  refine ⟨coherent, coherent', fun name => ?_, get?, satisfies, fun type => ?_⟩
  · rw [types_ofList, types_ofList, TypeHierarchy.get?, TypeHierarchy.get?]
    simp only [declared]
  · refine (List.perm_ext_iff_of_nodup (nodup_lookup_ofList made' os' type)
      (nodup_lookup_ofList made os type)).mpr fun o => ?_
    rw [coherent'.mem_lookup, coherent.mem_lookup, coherent'.mem_objects_iff,
      coherent.mem_objects_iff, get?, satisfies]

variable {t t' : ObjectTable}

theorem Reordered.admits_iff (same : t.Reordered t') {parameters : List Parameter}
    {arguments : List Object} : t'.Admits parameters arguments ↔ t.Admits parameters arguments := by
  simp only [Admits, same.coherent.mem_objects_iff, same.coherent'.mem_objects_iff, same.get?,
    same.satisfies]

theorem Reordered.mem_tuples_iff (same : t.Reordered t') {parameters : List Parameter}
    {arguments : List Object} : arguments ∈ (Candidates.of t' parameters).tuples ↔
      arguments ∈ (Candidates.of t parameters).tuples := by
  rw [same.coherent'.mem_tuples_iff, same.coherent.mem_tuples_iff, same.admits_iff]

theorem Reordered.count_eq (same : t.Reordered t') (parameters : List Parameter) :
    (Candidates.of t' parameters).count = (Candidates.of t parameters).count := by
  rw [Candidates.count, Candidates.count, Candidates.of, Candidates.of, List.foldr_map,
    List.foldr_map]
  simp only [(same.lookup _).length_eq]

end ObjectTable

variable {t t' : ObjectTable} {s : State} {g : Assignment}

namespace Formula

theorem satisfied_reordered (same : t.Reordered t') (f : Formula) :
    f.Satisfied ⟨t', s⟩ g ↔ f.Satisfied ⟨t, s⟩ g := by
  induction f using Formula.induction generalizing g with
  | atom a => rfl
  | equal left right => rfl
  | not f ih => simp only [Satisfied, ih]
  | and fs ih => rw [satisfied_and, satisfied_and]; exact forall₂_congr fun f hf => ih f hf
  | or fs ih =>
    rw [satisfied_or, satisfied_or]
    exact exists_congr fun f => and_congr_right fun hf => ih f hf
  | forAll parameters f ih => simp only [Satisfied, same.admits_iff, ih]
  | forSome parameters f ih => simp only [Satisfied, same.admits_iff, ih]
  | unsupported feature => rfl

theorem outcome_eval_reordered (same : t.Reordered t') {f : Formula}
    (bound : ∀ x ∈ f.free, g.get? x ≠ none) :
    (f.eval ⟨t', s⟩).outcome g = (f.eval ⟨t, s⟩).outcome g := by
  cases first : f.firstUnsupported with
  | some feature => rw [eval, eval, first]
  | none =>
    rw [firstUnsupported_eq_head?, List.head?_eq_none_iff] at first
    obtain ⟨b, answer, told⟩ := exists_eval_eq (w := ⟨t, s⟩) same.coherent bound first
    obtain ⟨b', answer', told'⟩ := exists_eval_eq (w := ⟨t', s⟩) same.coherent' bound first
    rw [answer, answer', Except.ok.injEq, Bool.eq_iff_iff, told, told', satisfied_reordered same]

end Formula

theorem Effect.change_reordered (same : t.Reordered t') (e : Effect) :
    e.change ⟨t', s⟩ g = e.change ⟨t, s⟩ g := by
  have list {es : List Effect} (g : Assignment)
      (ih : ∀ e ∈ es, ∀ {g}, e.change ⟨t', s⟩ g = e.change ⟨t, s⟩ g) :
      changeIn ⟨t', s⟩ es g = changeIn ⟨t, s⟩ es g := by
    rw [changeIn_eq_iSup, changeIn_eq_iSup]
    exact biSup_congr fun e he => ih e he
  induction e using Effect.induction generalizing g with
  | add a => rfl
  | delete a => rfl
  | when guard effects ih =>
    simp only [change, Formula.satisfied_reordered same, list g ih]
  | forAll parameters effects ih => simp only [change, same.admits_iff, list _ ih]
  | unsupported feature => rfl

theorem Delta.outcome_ofEffects_reordered (same : t.Reordered t') {es : List Effect}
    (bound : ∀ x ∈ Effect.freeIn es, g.get? x ≠ none) :
    (ofEffects ⟨t', s⟩ es).outcome g = (ofEffects ⟨t, s⟩ es).outcome g := by
  cases first : Effect.firstUnsupportedIn es with
  | some feature => rw [ofEffects, ofEffects, first]
  | none =>
    rw [Effect.firstUnsupportedIn_eq_head?, List.head?_eq_none_iff] at first
    obtain ⟨d, done, sets⟩ := exists_ofEffects_eq (w := ⟨t, s⟩) same.coherent bound first
    obtain ⟨d', done', sets'⟩ := exists_ofEffects_eq (w := ⟨t', s⟩) same.coherent' bound first
    rw [done, done', Except.ok.injEq]
    refine sets_injective ?_
    rw [sets, sets', Effect.changeIn_eq_iSup, Effect.changeIn_eq_iSup]
    exact biSup_congr fun e _ => Effect.change_reordered same e

namespace Action
variable {a : Action} {arguments : List Object}

theorem assign_reordered (same : t.Reordered t') (a : Action) (arguments : List Object) :
    a.assign t' arguments = a.assign t arguments := by
  simp only [assign, same.satisfies]

theorem Closed.isApplicable_reordered (closed : a.Closed) (same : t.Reordered t') :
    a.isApplicable t' s arguments = a.isApplicable t s arguments := by
  rw [isApplicable, isApplicable, assign_reordered same]
  cases assigned : a.assign t arguments with
  | error e => rfl
  | ok g => exact Formula.outcome_eval_reordered same (bound_of_assign assigned closed.precondition)

theorem Closed.delta_reordered (closed : a.Closed) (same : t.Reordered t') :
    a.delta t' s arguments = a.delta t s arguments := by
  rw [delta, delta, assign_reordered same]
  cases assigned : a.assign t arguments with
  | error e => rfl
  | ok g => exact Delta.outcome_ofEffects_reordered same (bound_of_assign assigned closed.effects)

theorem Closed.apply_reordered (closed : a.Closed) (same : t.Reordered t') :
    a.apply t' s arguments = a.apply t s arguments := by
  rw [apply, apply, closed.delta_reordered same]

theorem Closed.update_reordered (closed : a.Closed) (same : t.Reordered t') :
    a.update t' arguments = a.update t arguments := by
  simp only [update, closed.delta_reordered same]

end Action

namespace Rule
variable {rules : List Rule}

/-- The rule takes no variable from outside. -/
def Closed (r : Rule) : Prop := r.body.free ++ r.head.free ⊆ r.parameters.map Parameter.variableName

theorem Closed.fire_reordered {r : Rule} (closed : r.Closed) (same : t.Reordered t') :
    r.fire t' = r.fire t := by
  have bound : ∀ x ∈ Effect.freeIn r.effects, Assignment.empty.get? x ≠ none := by
    intro x hx
    simp only [effects, Effect.freeIn, Effect.free, List.append_nil] at hx
    obtain ⟨free, outside⟩ := List.mem_filter.mp hx
    exact absurd (closed free) (of_decide_eq_true outside)
  simp only [fire, Delta.outcome_ofEffects_reordered same bound]

theorem sweep_reordered (closed : ∀ r ∈ rules, r.Closed) (same : t.Reordered t') :
    sweep t' rules = sweep t rules := by
  induction rules with
  | nil => rfl
  | cons r rules ih =>
    obtain ⟨first, rest⟩ := List.forall_mem_cons.mp closed
    rw [sweep, sweep, first.fire_reordered same, ih rest]

theorem sweeps_reordered (closed : ∀ r ∈ rules, r.Closed) (same : t.Reordered t') (n : Nat) :
    sweeps t' rules n = sweeps t rules n := by
  induction n with
  | zero => rfl
  | succ n ih => rw [sweeps, sweeps, sweep_reordered closed same, ih]

/-- Closing takes the same sweeps, so it leads to the same state and tells the same. -/
theorem close_reordered (closed : ∀ r ∈ rules, r.Closed) (same : t.Reordered t') :
    close t' rules = close t rules := by
  have bound : instances t' rules = instances t rules := by
    simp only [instances, same.count_eq]
  rw [close, close, bound, sweeps_reordered closed same]

end Rule
end TypedPlanning
