import TypedPlanning.Proofs.Satisfaction
import Mathlib.Logic.Function.Basic

/-! Truth as logic has it. A valuation gives an object to every variable; there is no stack of
bindings, no order and nothing that may be missing. Evaluation returns, wherever the bindings cover
the free variables, and what it returns is the truth of the formula under every valuation that
extends the bindings there. -/

namespace TypedPlanning

abbrev Valuation := String → Object

namespace Valuation

/-- Gives new objects to parameters, one after the other, so that of two with one name the later
counts. -/
def assign (σ : Valuation) (parameters : List Parameter) (arguments : List Object) : Valuation :=
  (parameters.zip arguments).foldl (fun σ pair => Function.update σ pair.1.variableName pair.2) σ

theorem assign_cons (σ : Valuation) (p : Parameter) (parameters : List Parameter) (o : Object)
    (arguments : List Object) : σ.assign (p :: parameters) (o :: arguments) =
      assign (Function.update σ p.variableName o) parameters arguments := rfl

def Extends (σ : Valuation) (g : Assignment) (xs : List String) : Prop :=
  ∀ x ∈ xs, g.get? x = some (σ x)

variable {σ : Valuation} {g : Assignment} {xs ys : List String}

theorem Extends.mono (agree : σ.Extends g ys) (fewer : xs ⊆ ys) : σ.Extends g xs :=
  fun x hx => agree x (fewer hx)

/-- Bindings that are pushed onto the stack hide others just as new objects replace old ones. -/
theorem Extends.assign {parameters : List Parameter} {arguments : List Object}
    (fits : arguments.length = parameters.length)
    (agree : σ.Extends g (xs.filter (· ∉ parameters.map Parameter.variableName))) :
    (σ.assign parameters arguments).Extends (g.bindAll parameters arguments) xs := by
  induction parameters generalizing σ g arguments with
  | nil => simpa [Valuation.assign, Assignment.bindAll] using agree
  | cons p parameters ih =>
    obtain _ | ⟨o, arguments⟩ := arguments
    · simp at fits
    rw [assign_cons, Assignment.bindAll_cons]
    refine ih (Nat.succ.inj fits) fun x hx => ?_
    obtain ⟨hx, outside⟩ := List.mem_filter.mp hx
    rw [Assignment.get?_bind]
    by_cases same : x = p.variableName
    · subst same
      rw [if_pos rfl, Function.update_self]
    · rw [if_neg same, Function.update_of_ne same]
      refine agree x (List.mem_filter.mpr ⟨hx, ?_⟩)
      simpa [same] using outside

end Valuation

def Term.value (σ : Valuation) : Term → Object
  | .object o => o
  | .variableNamed x => σ x

def Atom.value (a : Atom) (σ : Valuation) : Fact := ⟨a.predicate, a.terms.map (Term.value σ)⟩

section Terms
variable {σ : Valuation} {g : Assignment}

theorem Term.value?_eq {t : Term} (agree : σ.Extends g t.free) :
    t.value? g = some (t.value σ) := by
  cases t with
  | object o => rfl
  | variableNamed x => exact agree x (List.mem_singleton_self x)

theorem Atom.denotes_iff {a : Atom} (agree : σ.Extends g a.free) {p : Fact} :
    a.Denotes g p ↔ p = a.value σ := by
  have values {arguments : List Object} :
      List.Forall₂ (fun t o => Term.value? g t = some o) a.terms arguments ↔
        arguments = a.terms.map (Term.value σ) := by
    have each : ∀ t ∈ a.terms, t.value? g = some (t.value σ) := fun t ht =>
      Term.value?_eq (agree.mono fun x hx => List.mem_flatMap.mpr ⟨t, ht, hx⟩)
    generalize a.terms = ts at each
    induction ts generalizing arguments with
    | nil => simp
    | cons t ts ih =>
      obtain ⟨first, rest⟩ := List.forall_mem_cons.mp each
      simp only [List.forall₂_cons_left_iff, first, Option.some.injEq, ih rest, List.map_cons]
      constructor
      · rintro ⟨o, os, rfl, rfl, rfl⟩
        rfl
      · rintro rfl
        exact ⟨_, _, rfl, rfl, rfl⟩
  obtain ⟨predicate, arguments⟩ := p
  rw [Denotes, values, Atom.value, Fact.mk.injEq]

end Terms

namespace Formula

mutual

/-- Classical truth. Quantifiers range over all tuples of objects of the types asked for. -/
def Models (w : World) : Formula → Valuation → Prop
  | .atom a, σ => a.value σ ∈ w.state
  | .equal left right, σ => left.value σ = right.value σ
  | .not f, σ => ¬ f.Models w σ
  | .and fs, σ => ModelsAll w fs σ
  | .or fs, σ => ModelsAny w fs σ
  | .forAll parameters f, σ => ∀ arguments, w.objects.Admits parameters arguments →
      f.Models w (σ.assign parameters arguments)
  | .forSome parameters f, σ => ∃ arguments, w.objects.Admits parameters arguments ∧
      f.Models w (σ.assign parameters arguments)
  | .unsupported _, _ => False

def ModelsAll (w : World) : List Formula → Valuation → Prop
  | [], _ => True
  | f :: fs, σ => f.Models w σ ∧ ModelsAll w fs σ

def ModelsAny (w : World) : List Formula → Valuation → Prop
  | [], _ => False
  | f :: fs, σ => f.Models w σ ∨ ModelsAny w fs σ

end

variable {w : World} {σ : Valuation} {g : Assignment}

@[simp] theorem models_and {fs : List Formula} :
    (Formula.and fs).Models w σ ↔ ∀ f ∈ fs, f.Models w σ := by
  rw [Models]
  induction fs with
  | nil => simp [ModelsAll]
  | cons f fs ih => simp [ModelsAll, ih]

@[simp] theorem models_or {fs : List Formula} :
    (Formula.or fs).Models w σ ↔ ∃ f ∈ fs, f.Models w σ := by
  rw [Models]
  induction fs with
  | nil => simp [ModelsAny]
  | cons f fs ih => simp [ModelsAny, ih]

theorem satisfied_iff_models (f : Formula) (agree : σ.Extends g f.free) :
    f.Satisfied w g ↔ f.Models w σ := by
  induction f using Formula.induction generalizing σ g with
  | atom a =>
    rw [Satisfied, Models]
    simp only [Atom.denotes_iff agree, exists_eq_right]
  | equal left right =>
    rw [Satisfied, Models, Term.value?_eq (agree.mono (List.subset_append_left _ _)),
      Term.value?_eq (agree.mono (List.subset_append_right _ _))]
    simp only [Option.some.injEq, exists_eq_left']
    exact eq_comm
  | not f ih => rw [Satisfied, Models, ih agree]
  | and fs ih =>
    rw [satisfied_and, models_and]
    exact forall₂_congr fun f hf => ih f hf (agree.mono fun x hx => mem_freeIn.mpr ⟨f, hf, hx⟩)
  | or fs ih =>
    rw [satisfied_or, models_or]
    refine exists_congr fun f => and_congr_right fun hf => ih f hf (agree.mono fun x hx => ?_)
    exact mem_freeIn.mpr ⟨f, hf, hx⟩
  | forAll parameters f ih =>
    rw [Satisfied, Models]
    exact forall₂_congr fun arguments admitted => ih (agree.assign admitted.length_eq)
  | forSome parameters f ih =>
    rw [Satisfied, Models]
    refine exists_congr fun arguments => and_congr_right fun admitted => ?_
    exact ih (agree.assign admitted.length_eq)
  | unsupported feature => rw [Satisfied, Models]

/-- A formula in which everything can be decided has an answer under all bindings that cover its
free variables. It is the classical truth, whatever the objects, their types and the state are, and
no other variable matters. -/
theorem eval_eq_classical_truth (types : TypeHierarchy) (declared : List Object) (s : State)
    {f : Formula} {g : Assignment} (bound : ∀ x ∈ f.free, g.get? x ≠ none)
    (decidable : f.features = []) :
    ∃ b, (f.eval ⟨.ofList types declared, s⟩).outcome g = .ok b ∧
      ∀ σ : Valuation, σ.Extends g f.free →
        (b = true ↔ f.Models ⟨.ofList types declared, s⟩ σ) := by
  have coherent := ObjectTable.coherent_ofList types declared
  obtain ⟨b, answer, truth⟩ := exists_eval_eq (w := ⟨_, s⟩) coherent bound decidable
  exact ⟨b, answer, fun σ agree => truth.trans (satisfied_iff_models f agree)⟩

/-- The variable is free, then bound by a quantifier, and then bound twice by a quantifier inside
of that one. -/
def shadowing : Formula :=
  .and [.atom ⟨"held", [.variableNamed "?x"]⟩,
    .forSome [⟨"?x", "seat"⟩] (.and [.not (.atom ⟨"held", [.variableNamed "?x"]⟩),
      .forAll [⟨"?x", "aisle"⟩, ⟨"?x", "seat"⟩]
        (.or [.atom ⟨"held", [.variableNamed "?x"]⟩,
          .equal (.variableNamed "?x") (.object ⟨"b", "seat"⟩)])])]

def stalls : World where
  objects := .ofList .initial [⟨"a", "seat"⟩, ⟨"b", "seat"⟩, ⟨"w", "aisle"⟩]
  state := .ofList [Fact.mk "held" [⟨"a", "seat"⟩]]

/-- Each occurrence of the variable stands for what its nearest binder gives it, which for the last
two is a seat and not an aisle. -/
theorem eval_eq_classical_truth_shadowing :
    (∀ x ∈ shadowing.free, (Assignment.empty.bind "?x" ⟨"a", "seat"⟩).get? x ≠ none) ∧
    shadowing.features = [] ∧
    (shadowing.eval stalls).outcome (Assignment.empty.bind "?x" ⟨"a", "seat"⟩) = .ok true ∧
    shadowing.Models stalls fun _ => ⟨"a", "seat"⟩ := by
  have bound : ∀ x ∈ shadowing.free,
      (Assignment.empty.bind "?x" ⟨"a", "seat"⟩).get? x ≠ none := by decide
  have decidable : shadowing.features = [] := rfl
  have computed : (shadowing.eval stalls).outcome (Assignment.empty.bind "?x" ⟨"a", "seat"⟩) =
      .ok true := by
    decide +kernel
  obtain ⟨b, answer, truth⟩ := eval_eq_classical_truth _ _ _ bound decidable
  obtain rfl := Except.ok.inj (answer.symm.trans computed)
  exact ⟨bound, decidable, computed, (truth _ (by unfold Valuation.Extends; decide)).mp rfl⟩

end Formula
end TypedPlanning
