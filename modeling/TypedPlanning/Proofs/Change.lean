import TypedPlanning.Proofs.Delta
import TypedPlanning.Proofs.Satisfaction
import Mathlib.Data.Set.Lattice
import Mathlib.Order.ConditionallyCompleteLattice.Basic

/-! What effects amount to: the set of facts that they add and the set of those that they delete.
All guards are read in one state, so the change made by several effects is the union of theirs, in
whatever order they are gathered. -/

namespace TypedPlanning
open Fallible Evaluation

theorem mem_fst_iSup {ι : Sort*} {changes : ι → Set Fact × Set Fact} {p : Fact} :
    p ∈ (⨆ i, changes i).1 ↔ ∃ i, p ∈ (changes i).1 := by
  rw [Prod.fst_iSup, Set.iSup_eq_iUnion, Set.mem_iUnion]

theorem mem_snd_iSup {ι : Sort*} {changes : ι → Set Fact × Set Fact} {p : Fact} :
    p ∈ (⨆ i, changes i).2 ↔ ∃ i, p ∈ (changes i).2 := by
  rw [Prod.snd_iSup, Set.iSup_eq_iUnion, Set.mem_iUnion]

namespace Effect

/-- Induction that knows every effect below a guard or a quantifier. -/
theorem induction {P : Effect → Prop} (add : ∀ a, P (.add a)) (delete : ∀ a, P (.delete a))
    (when : ∀ guard effects, (∀ e ∈ effects, P e) → P (.when guard effects))
    (forAll : ∀ parameters effects, (∀ e ∈ effects, P e) → P (.forAll parameters effects))
    (unsupported : ∀ feature, P (.unsupported feature)) : ∀ e, P e :=
  @Effect.rec P (fun es => ∀ e ∈ es, P e) add delete when forAll unsupported (by simp)
    fun e es he hes => List.forall_mem_cons.mpr ⟨he, hes⟩

mutual

def free : Effect → List String
  | .add a => a.free
  | .delete a => a.free
  | .when guard effects => guard.free ++ freeIn effects
  | .forAll parameters effects =>
    (freeIn effects).filter (· ∉ parameters.map Parameter.variableName)
  | .unsupported _ => []

def freeIn : List Effect → List String
  | [] => []
  | e :: es => e.free ++ freeIn es

end

mutual

/-- The constructs that cannot be decided, a guard before what it guards. -/
def features : Effect → List Feature
  | .add _ => []
  | .delete _ => []
  | .when guard effects => guard.features ++ featuresIn effects
  | .forAll _ effects => featuresIn effects
  | .unsupported feature => [feature]

def featuresIn : List Effect → List Feature
  | [] => []
  | e :: es => e.features ++ featuresIn es

end

@[simp] theorem mem_freeIn {x : String} {es : List Effect} :
    x ∈ freeIn es ↔ ∃ e ∈ es, x ∈ e.free := by
  induction es with
  | nil => simp [freeIn]
  | cons e es ih => simp [freeIn, ih]

theorem freeIn_append (es fs : List Effect) : freeIn (es ++ fs) = freeIn es ++ freeIn fs := by
  induction es with
  | nil => rfl
  | cons e es ih => simp [freeIn, ih]

theorem freeIn_flatten (parts : List (List Effect)) :
    freeIn parts.flatten = parts.flatMap freeIn := by
  induction parts with
  | nil => rfl
  | cons part parts ih => rw [List.flatten_cons, freeIn_append, ih, List.flatMap_cons]

theorem featuresIn_append (es fs : List Effect) :
    featuresIn (es ++ fs) = featuresIn es ++ featuresIn fs := by
  induction es with
  | nil => rfl
  | cons e es ih => simp [featuresIn, ih]

theorem featuresIn_flatten (parts : List (List Effect)) :
    featuresIn parts.flatten = parts.flatMap featuresIn := by
  induction parts with
  | nil => rfl
  | cons part parts ih => rw [List.flatten_cons, featuresIn_append, ih, List.flatMap_cons]

@[simp] theorem mem_featuresIn {feature : Feature} {es : List Effect} :
    feature ∈ featuresIn es ↔ ∃ e ∈ es, feature ∈ e.features := by
  induction es with
  | nil => simp [featuresIn]
  | cons e es ih => simp [featuresIn, ih]

theorem firstUnsupportedIn_eq_head? (es : List Effect) :
    firstUnsupportedIn es = (featuresIn es).head? := by
  have list (es : List Effect) (ih : ∀ e ∈ es, e.firstUnsupported = e.features.head?) :
      firstUnsupportedIn es = (featuresIn es).head? := by
    induction es with
    | nil => rfl
    | cons e es ih' =>
      obtain ⟨he, hes⟩ := List.forall_mem_cons.mp ih
      simp [firstUnsupportedIn, featuresIn, he, ih' hes]
  suffices all : ∀ e : Effect, e.firstUnsupported = e.features.head? from list es fun e _ => all e
  intro e
  induction e using Effect.induction with
  | add a => rfl
  | delete a => rfl
  | when guard effects ih =>
    simp [firstUnsupported, features, guard.firstUnsupported_eq_head?, list effects ih]
  | forAll parameters effects ih => simpa [firstUnsupported, features] using list effects ih
  | unsupported feature => rfl

mutual

def change (w : World) : Effect → Assignment → Set Fact × Set Fact
  | .add a, g => ({p | a.Denotes g p}, ∅)
  | .delete a, g => (∅, {p | a.Denotes g p})
  | .when guard effects, g => ⨆ _ : guard.Satisfied w g, changeIn w effects g
  | .forAll parameters effects, g =>
    ⨆ (arguments) (_ : w.objects.Admits parameters arguments),
      changeIn w effects (g.bindAll parameters arguments)
  | .unsupported _, _ => ⊥

def changeIn (w : World) : List Effect → Assignment → Set Fact × Set Fact
  | [], _ => ⊥
  | e :: es, g => e.change w g ⊔ changeIn w es g

end

theorem changeIn_eq_iSup (w : World) (es : List Effect) (g : Assignment) :
    changeIn w es g = ⨆ e ∈ es, e.change w g := by
  induction es with
  | nil => simp [changeIn]
  | cons e es ih => simp [changeIn, ih, iSup_or, iSup_sup_eq]

theorem changeIn_singleton (w : World) (e : Effect) (g : Assignment) :
    changeIn w [e] g = e.change w g := by
  rw [changeIn, changeIn, sup_bot_eq]

theorem changeIn_map {α : Type} (w : World) (f : α → Effect) (as : List α) (g : Assignment) :
    changeIn w (as.map f) g = ⨆ a ∈ as, (f a).change w g := by
  simp only [changeIn_eq_iSup, List.mem_map, iSup_exists, iSup_and, iSup_comm (ι := Effect),
    iSup_iSup_eq_right]

theorem changeIn_append (w : World) (es fs : List Effect) (g : Assignment) :
    changeIn w (es ++ fs) g = changeIn w es g ⊔ changeIn w fs g := by
  simp only [changeIn_eq_iSup, List.mem_append, iSup_or, iSup_sup_eq]

theorem changeIn_flatten (w : World) (parts : List (List Effect)) (g : Assignment) :
    changeIn w parts.flatten g = ⨆ part ∈ parts, changeIn w part g := by
  induction parts with
  | nil => simp [changeIn]
  | cons part parts ih =>
    rw [List.flatten_cons, changeIn_append, ih]
    simp [iSup_or, iSup_sup_eq]

end Effect

namespace Delta
variable {w : World}

def sets (d : Delta) : Set Fact × Set Fact := ({p | p ∈ d.add}, {p | p ∈ d.delete})

theorem sets_empty : Delta.empty.sets = ⊥ := by
  simp [sets, empty, Prod.ext_iff]

theorem sets_injective {d d' : Delta} (same : d.sets = d'.sets) : d = d' := by
  obtain ⟨add, delete⟩ := d
  obtain ⟨add', delete'⟩ := d'
  have added := congrArg Prod.fst same
  have deleted := congrArg Prod.snd same
  obtain rfl : add = add' := State.ext (Set.ext_iff.mp added)
  obtain rfl : delete = delete' := State.ext (Set.ext_iff.mp deleted)
  rfl

theorem gatherAll_eq (es : List Effect) (d : Delta) :
    gatherAll w es d = es.foldlM (fun d e => gather w e d) d := by
  induction es generalizing d with
  | nil => rfl
  | cons e es ih =>
    rw [gatherAll, List.foldlM_cons]
    exact bind_congr ih

theorem gather_forAll (parameters : List Parameter) (effects : List Effect) (d : Delta) :
    gather w (.forAll parameters effects) d =
      (Candidates.of w.objects parameters).tuples.foldlM
        (fun d arguments => under parameters arguments (gatherAll w effects d)) d := by
  rw [gather, Candidates.forIn_eq, bind_pure]
  induction (Candidates.of w.objects parameters).tuples generalizing d with
  | nil => rfl
  | cons arguments tuples ih =>
    rw [List.forIn_cons, List.foldlM_cons, bind_assoc]
    refine bind_congr fun d' => ?_
    rw [pure_bind]
    exact ih d'

theorem restores_gather (e : Effect) (d : Delta) : Restores (gather w e d) := by
  induction e using Effect.induction generalizing d with
  | add a => rw [gather]; exact a.restores_ground.bind fun p => restores_pure _
  | delete a => rw [gather]; exact a.restores_ground.bind fun p => restores_pure _
  | when guard effects ih =>
    rw [gather]
    refine guard.restores_eval.bind fun b => ?_
    cases b with
    | false => exact restores_pure d
    | true =>
      simp only [if_true, gatherAll_eq]
      exact restores_foldlM (fun d e he => ih e he d) d
  | forAll parameters effects ih =>
    rw [gather_forAll]
    refine restores_foldlM (fun d arguments _ => Restores.under ?_ parameters arguments) d
    rw [gatherAll_eq]
    exact restores_foldlM (fun d e he => ih e he d) d
  | unsupported feature => rw [gather]; exact restores_throw _

theorem restores_gatherAll (es : List Effect) (d : Delta) : Restores (gatherAll w es d) := by
  rw [gatherAll_eq]
  exact restores_foldlM (fun d e _ => restores_gather e d) d

theorem outcome_gatherAll (es : List Effect) (d : Delta) (g : Assignment) :
    (gatherAll w es d).outcome g = es.foldlM (fun d e => (gather w e d).outcome g) d := by
  rw [gatherAll_eq, outcome_foldlM fun d e => restores_gather e d]

theorem outcome_gather_when (guard : Formula) (effects : List Effect) (d : Delta)
    (g : Assignment) : (gather w (.when guard effects) d).outcome g =
      (guard.eval w).outcome g >>= fun b =>
        if b = true then (gatherAll w effects d).outcome g else .ok d := by
  rw [gather, outcome_bind guard.restores_eval]
  congr 1
  funext b
  cases b <;> rfl

theorem outcome_gather_forAll (parameters : List Parameter) (effects : List Effect) (d : Delta)
    (g : Assignment) : (gather w (.forAll parameters effects) d).outcome g =
      (Candidates.of w.objects parameters).tuples.foldlM (fun d arguments =>
        (gatherAll w effects d).outcome (g.bindAll parameters arguments)) d := by
  rw [gather_forAll, outcome_foldlM fun _ _ => (restores_gatherAll _ _).under _ _]
  simp only [outcome_under]

theorem sets_foldlM {α : Type} {as : List α} {f : Delta → α → Except Error Delta}
    {c : α → Set Fact × Set Fact}
    (step : ∀ a ∈ as, ∀ d d', f d a = .ok d' → d'.sets = d.sets ⊔ c a) {d d' : Delta}
    (done : as.foldlM f d = .ok d') : d'.sets = d.sets ⊔ ⨆ a ∈ as, c a := by
  induction as generalizing d with
  | nil =>
    obtain rfl := Except.ok.inj done
    simp
  | cons a as ih =>
    rw [List.foldlM_cons] at done
    obtain ⟨d₁, first, rest⟩ := bind_eq_ok.mp done
    rw [ih (fun a ha => step a (List.mem_cons_of_mem _ ha)) rest,
      step a List.mem_cons_self _ _ first, sup_assoc]
    simp [iSup_or, iSup_sup_eq]

theorem sets_insert_add (d : Delta) (p : Fact) :
    ({ d with add := d.add.insert p } : Delta).sets = d.sets ⊔ ({p}, ∅) := by
  ext q <;> simp [sets, State.mem_insert, -Std.ExtTreeSet.mem_insert]

theorem sets_insert_delete (d : Delta) (p : Fact) :
    ({ d with delete := d.delete.insert p } : Delta).sets = d.sets ⊔ (∅, {p}) := by
  ext q <;> simp [sets, State.mem_insert, -Std.ExtTreeSet.mem_insert]

/-- A gathered delta has, on top of what it had, the change of the effect. -/
theorem sets_gather (coherent : w.objects.Coherent) (e : Effect) {d d' : Delta} {g : Assignment}
    (done : (gather w e d).outcome g = .ok d') : d'.sets = d.sets ⊔ e.change w g := by
  induction e using Effect.induction generalizing d d' g with
  | add a =>
    rw [gather, outcome_bind a.restores_ground] at done
    obtain ⟨p, hp, same⟩ := bind_eq_ok.mp done
    obtain rfl := Except.ok.inj same
    rw [sets_insert_add, Effect.change, Atom.denotes_eq_singleton hp]
  | delete a =>
    rw [gather, outcome_bind a.restores_ground] at done
    obtain ⟨p, hp, same⟩ := bind_eq_ok.mp done
    obtain rfl := Except.ok.inj same
    rw [sets_insert_delete, Effect.change, Atom.denotes_eq_singleton hp]
  | when guard effects ih =>
    rw [outcome_gather_when] at done
    obtain ⟨b, hb, rest⟩ := bind_eq_ok.mp done
    have truth := guard.answers_eval coherent g b hb
    cases b with
    | false =>
      obtain rfl := Except.ok.inj rest
      simp [Effect.change, ← truth]
    | true =>
      simp only [if_true, outcome_gatherAll] at rest
      rw [sets_foldlM (fun e he d d' => ih e he) rest, Effect.change, Effect.changeIn_eq_iSup,
        iSup_pos (truth.mp rfl)]
  | forAll parameters effects ih =>
    rw [outcome_gather_forAll] at done
    rw [sets_foldlM (c := fun arguments =>
      Effect.changeIn w effects (g.bindAll parameters arguments)) _ done, Effect.change]
    · simp only [coherent.mem_tuples_iff]
    · intro arguments _ d d' step
      rw [outcome_gatherAll] at step
      rw [sets_foldlM (fun e he d d' => ih e he) step, Effect.changeIn_eq_iSup]
  | unsupported feature =>
    rw [gather] at done
    cases done

theorem sets_ofEffects (coherent : w.objects.Coherent) {es : List Effect} {d : Delta}
    {g : Assignment} (done : (ofEffects w es).outcome g = .ok d) :
    d.sets = Effect.changeIn w es g := by
  unfold ofEffects at done
  split at done
  · cases done
  · rw [outcome_gatherAll] at done
    rw [sets_foldlM (fun e _ d d' => sets_gather coherent e) done, sets_empty, bot_sup_eq,
      Effect.changeIn_eq_iSup]

theorem failsOnly_gather (e : Effect) (d : Delta) (g : Assignment) :
    FailsOnly (Trouble e.free e.features g) ((gather w e d).outcome g) := by
  have list {es : List Effect} (g : Assignment) (d : Delta)
      (ih : ∀ e ∈ es, ∀ d, FailsOnly (Trouble e.free e.features g) ((gather w e d).outcome g)) :
      FailsOnly (Trouble (Effect.freeIn es) (Effect.featuresIn es) g)
        ((gatherAll w es d).outcome g) := by
    rw [outcome_gatherAll]
    refine failsOnly_foldlM (fun d e he => (ih e he d).mono fun _ => Trouble.mono ?_ ?_) d
    · exact fun x hx => Effect.mem_freeIn.mpr ⟨e, he, hx⟩
    · exact fun feature found => Effect.mem_featuresIn.mpr ⟨e, he, found⟩
  induction e using Effect.induction generalizing d g with
  | add a =>
    rw [gather, outcome_bind a.restores_ground]
    exact (a.failsOnly_ground g).bind fun _ _ => failsOnly_ok _
  | delete a =>
    rw [gather, outcome_bind a.restores_ground]
    exact (a.failsOnly_ground g).bind fun _ _ => failsOnly_ok _
  | when guard effects ih =>
    rw [outcome_gather_when]
    refine ((guard.failsOnly_eval g).mono fun _ => ?_).bind fun b _ => ?_
    · exact Trouble.mono (List.subset_append_left _ _) (List.subset_append_left _ _)
    · cases b with
      | false => exact failsOnly_ok d
      | true =>
        refine (list g d fun e he d => ih e he d g).mono fun _ => ?_
        exact Trouble.mono (List.subset_append_right _ _) (List.subset_append_right _ _)
  | forAll parameters effects ih =>
    rw [outcome_gather_forAll]
    refine failsOnly_foldlM (fun d arguments admitted => ?_) d
    refine (list _ d fun e he d => ih e he d _).mono fun _ => ?_
    exact Trouble.of_bindAll (Candidates.length_of_mem_tuples admitted)
  | unsupported feature =>
    rw [gather]
    exact failsOnly_error (.inr ⟨feature, List.mem_singleton_self _, rfl⟩)

theorem failsOnly_ofEffects (es : List Effect) (g : Assignment) :
    FailsOnly (Trouble (Effect.freeIn es) (Effect.featuresIn es) g)
      ((ofEffects w es).outcome g) := by
  unfold ofEffects
  split
  · next feature first =>
    rw [Effect.firstUnsupportedIn_eq_head?] at first
    exact failsOnly_error (.inr ⟨feature, List.mem_of_head? first, rfl⟩)
  · rw [outcome_gatherAll]
    refine failsOnly_foldlM (fun d e he => (failsOnly_gather e d g).mono fun _ => ?_) empty
    exact Trouble.mono (fun x hx => Effect.mem_freeIn.mpr ⟨e, he, hx⟩)
      fun feature found => Effect.mem_featuresIn.mpr ⟨e, he, found⟩

/-- Effects in which everything can be decided are gathered under all bindings that cover their free
variables, and what is gathered is their change. -/
theorem exists_ofEffects_eq (coherent : w.objects.Coherent) {es : List Effect} {g : Assignment}
    (bound : ∀ x ∈ Effect.freeIn es, g.get? x ≠ none) (decidable : Effect.featuresIn es = []) :
    ∃ d, (ofEffects w es).outcome g = .ok d ∧ d.sets = Effect.changeIn w es g := by
  obtain ⟨d, done⟩ :=
    exists_ok ((failsOnly_ofEffects (w := w) es g).mono fun e trouble =>
      trouble.elim bound decidable)
  exact ⟨d, done, sets_ofEffects coherent done⟩

theorem featuresIn_eq_nil_of_ofEffects {es : List Effect} {d : Delta} {g : Assignment}
    (done : (ofEffects w es).outcome g = .ok d) : Effect.featuresIn es = [] := by
  unfold ofEffects at done
  split at done
  · cases done
  · next none_found =>
    rw [Effect.firstUnsupportedIn_eq_head?] at none_found
    exact List.head?_eq_none_iff.mp none_found

theorem restores_ofEffects (es : List Effect) : Restores (ofEffects w es) := by
  unfold ofEffects
  split
  · exact restores_throw _
  · exact restores_gatherAll es empty

end Delta
end TypedPlanning
