import TypedPlanning.Proofs.CheckedDefinitions
import TypedPlanning.Proofs.Preservation

/-! The types of facts. Where the check finds no error in an atom, the facts that the atom can stand
for have objects of the types that their predicate declares, whatever the variables around it are
bound to, as long as each is bound to an object of its own type. Effects and binders hand this
on. -/

namespace TypedPlanning
open Fallible

namespace Definition

/-- Nothing but the root lies above the root. -/
theorem Reaches.trans {types : List TypedName} {a b c : String} (lower : Reaches types a b)
    (upper : Reaches types b c) : Reaches types a c := by
  obtain path | rfl := upper
  · obtain below | rfl := lower
    · exact .inl (below.trans path)
    · obtain rfl | ⟨_, ⟨proper, -⟩, -⟩ := path.cases_head
      · exact .inr rfl
      · exact absurd rfl proper
  · exact .inr rfl

end Definition

namespace Vocabulary
variable {v : Vocabulary} {σ : Definition.Setting}

def Types (v : Vocabulary) (p : Fact) : Prop :=
  ∃ signature, v.predicates.get? p.predicate = some signature ∧
    List.Forall₂ (fun o type => v.objects.satisfies o type = true) p.arguments
      signature.parameters

theorem Agrees.satisfies_trans (agrees : v.Agrees σ) {o : Object} {sub sup : String}
    (lower : v.objects.satisfies o sub = true) (upper : v.objects.types.isSubtype sub sup = true) :
    v.objects.satisfies o sup = true :=
  agrees.isSubtype.mpr ((agrees.isSubtype.mp lower).trans (agrees.isSubtype.mp upper))

end Vocabulary

namespace Definition
namespace Declarations
variable {d : Declarations} {v : Vocabulary} {σ : Setting} {scope : Scope} {env : Environment}
  {context predicate : String} {position : Nat} {t : ObjectTable}

/-- The check knows a type for each variable that it knows and that is bound, and the object bound
to it is of that type. -/
def Suits (t : ObjectTable) (scope : Scope) (env : Environment) : Prop :=
  ∀ x found o, scope.lookup x = some found → env x = some o →
    ∃ type, found = some type ∧ t.satisfies o type = true

theorem suits_nil (t : ObjectTable) (env : Environment) : Suits t [] env := by
  intro x found o known
  cases known

theorem Suits.update (suits : Suits t scope env) {o : Object} {type : String}
    (typed : t.satisfies o type = true) (x : String) :
    Suits t ((x, some type) :: scope) (Function.update env x (some o)) := by
  intro y found o' known bound
  rw [List.lookup_cons] at known
  rw [Function.update_apply] at bound
  by_cases same : y = x
  · rw [same, beq_self_eq_true] at known
    rw [if_pos same] at bound
    obtain rfl := Option.some.inj known
    obtain rfl := Option.some.inj bound
    exact ⟨type, rfl, typed⟩
  · rw [beq_false_of_ne same] at known
    rw [if_neg same] at bound
    exact suits y found o' known bound

theorem Suits.bind (suits : Suits t scope env) {vs : List TypedName} {os : List Object}
    (known : ∀ x ∈ vs, x.type ∈ d.types.types)
    (typed : List.Forall₂ (fun o (x : TypedName) => t.satisfies o x.type = true) os vs) :
    Suits t (d.extend vs scope) (env.bind vs os) := by
  induction typed generalizing scope env with
  | nil => exact suits
  | @cons o x os vs first _ ih =>
    obtain ⟨declared, known⟩ := List.forall_mem_cons.mp known
    have type : d.types.get? x.type = some x.type :=
      TypeHierarchy.get?_eq_some.mpr ⟨declared, rfl⟩
    have inner := ih (suits.update first x.name) known
    rw [Declarations.extend, List.map_cons, List.reverse_cons, List.append_assoc, type]
    exact inner

variable (records : d.Records v) (agrees : v.Agrees σ) (suits : Suits v.objects scope env)
include records agrees suits

theorem satisfies_of_clean_argument {u : Term} {o : Object} {expected : String}
    (clean : Clean (d.checkArgument scope context predicate position u (some expected)))
    (value : u.value? σ env = some o) : v.objects.satisfies o expected = true := by
  unfold checkArgument at clean
  obtain ⟨term, argument⟩ := clean_append.mp clean
  cases u with
  | name n =>
    have known : d.typeOf? scope (.name n) = some (some o.type) := by
      have indexed : v.objects.get? n = some o := (agrees.get? n).trans value
      rw [typeOf?, records.objects, indexed]
      rfl
    rw [known] at argument
    have below := (clean_ite_error argument).1
    rw [records.types] at below
    exact below
  | variableNamed x =>
    cases known : scope.lookup x with
    | none =>
      simp only [checkTerm, typeOf?, known] at term
      exact absurd term not_clean_error
    | some found =>
      obtain ⟨type, rfl, typed⟩ := suits x found o known value
      have known : d.typeOf? scope (.variableNamed x) = some (some type) := known
      rw [known] at argument
      have below := (clean_ite_error argument).1
      rw [records.types] at below
      exact agrees.satisfies_trans typed below

theorem satisfies_of_clean_arguments {us : List Term} {os : List Object} {types : List String}
    (length : types.length = us.length)
    (clean : Clean (d.checkArguments scope context predicate position us (types.map some)))
    (values : List.Forall₂ (fun u o => Term.value? σ env u = some o) us os) :
    List.Forall₂ (fun o type => v.objects.satisfies o type = true) os types := by
  induction values generalizing types position with
  | nil =>
    obtain rfl := List.length_eq_zero_iff.mp length
    exact .nil
  | cons value _ ih =>
    cases types with
    | nil => cases length
    | cons type types =>
      rw [List.map_cons, checkArguments, clean_append] at clean
      obtain ⟨first, rest⟩ := clean
      exact .cons (satisfies_of_clean_argument records agrees suits first value)
        (ih (Nat.succ.inj length) rest)

theorem types_of_clean_atom {a : Atom} {p : Fact} (clean : Clean (d.checkAtom scope context a))
    (denoted : a.Denotes σ env p) : v.Types p := by
  unfold checkAtom at clean
  split at clean
  · exact absurd clean not_clean_error
  · next types found =>
    obtain ⟨length, clean⟩ := clean_ite_error clean
    rw [records.predicates, Option.map_eq_some_iff] at found
    obtain ⟨signature, declared, rfl⟩ := found
    rw [List.length_map] at length
    refine ⟨signature, denoted.1 ▸ declared, ?_⟩
    exact satisfies_of_clean_arguments records agrees suits length clean denoted.2

omit suits

theorem types_of_clean_effect {e : Effect} (suits : Suits v.objects scope env)
    (clean : Clean (d.checkEffect context scope e)) {s : State} {p : Fact}
    (added : p ∈ (e.change σ s env).1) : v.Types p := by
  induction e using Effect.induction generalizing scope env with
  | add a =>
    rw [checkEffect] at clean
    exact types_of_clean_atom records agrees suits clean added
  | delete a => cases added
  | and es ih =>
    rw [checkEffect] at clean
    simp only [Effect.change, Effect.changeIn_eq_iSup, mem_fst_iSup] at added
    obtain ⟨e, he, added⟩ := added
    exact ih e he suits (clean_effects clean e he) added
  | when guard e ih =>
    rw [checkEffect, clean_append] at clean
    simp only [Effect.change, mem_fst_iSup] at added
    obtain ⟨-, added⟩ := added
    exact ih suits clean.2 added
  | forAll vs e ih =>
    rw [checkEffect, clean_append] at clean
    simp only [Effect.change, mem_fst_iSup] at added
    obtain ⟨os, admitted, added⟩ := added
    have typed : List.Forall₂ (fun o (x : TypedName) => v.objects.satisfies o x.type = true)
        os vs := admitted.imp fun o x fits => agrees.isSubtype.mpr fits.2
    exact ih (suits.bind (mem_types_of_clean_variables clean.1) typed) clean.2 added
  | unsupported feature => cases added

end Declarations
end Definition
end TypedPlanning
