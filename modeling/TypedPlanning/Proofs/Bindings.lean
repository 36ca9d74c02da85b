import TypedPlanning.Proofs.Change

/-! The stack of bindings during an evaluation. Quantifiers push their variables onto it and take
them off again, also when they stop early and when something inside of them fails. So the stack is
in the end what it was in the beginning, and what is evaluated later finds no binding that it should
not see: the outcome of each part depends only on the bindings around it. -/

namespace TypedPlanning
open Evaluation

/-- The bindings that an evaluation leaves behind, be it with an answer or with an error. -/
def Evaluation.leaves {α : Type} (x : Evaluation α) (g : Assignment) : Assignment :=
  match x.run g with
  | .ok _ g' => g'
  | .error _ g' => g'

theorem Evaluation.Restores.leaves_eq {α : Type} {x : Evaluation α} (restores : Restores x)
    (g : Assignment) : x.leaves g = g := by
  rw [leaves, restores.run_eq]
  cases x.outcome g <;> rfl

/-- The parts of a formula are evaluated from left to right, each under the same bindings from
outside, and under a quantifier with one tuple of candidates on top of them. -/
structure Formula.Lexical (w : World) (g : Assignment) : Prop where
  not : ∀ f : Formula,
    (f.not.holds w).outcome g = (f.holds w).outcome g >>= fun b => .ok !b
  and : ∀ fs : List Formula,
    ((Formula.and fs).holds w).outcome g = fs.allM fun f => (f.holds w).outcome g
  or : ∀ fs : List Formula,
    ((Formula.or fs).holds w).outcome g = fs.anyM fun f => (f.holds w).outcome g
  forAll : ∀ (parameters : List Parameter) (f : Formula),
    ((Formula.forAll parameters f).holds w).outcome g =
      (Candidates.of w.objects parameters).tuples.allM fun arguments =>
        (f.holds w).outcome (g.bindAll parameters arguments)
  forSome : ∀ (parameters : List Parameter) (f : Formula),
    ((Formula.forSome parameters f).holds w).outcome g =
      (Candidates.of w.objects parameters).tuples.anyM fun arguments =>
        (f.holds w).outcome (g.bindAll parameters arguments)

/-- Effects are gathered from left to right, each under the same bindings from outside, a guard
before what it guards, and under a quantifier with one tuple of candidates on top of them. -/
structure Delta.Lexical (w : World) (g : Assignment) : Prop where
  all : ∀ (es : List Effect) (d : Delta),
    (gatherAll w es d).outcome g = es.foldlM (fun d e => (gather w e d).outcome g) d
  when : ∀ (guard : Formula) (es : List Effect) (d : Delta),
    (gather w (.when guard es) d).outcome g =
      (guard.eval w).outcome g >>= fun b =>
        if b = true then (gatherAll w es d).outcome g else .ok d
  forAll : ∀ (parameters : List Parameter) (es : List Effect) (d : Delta),
    (gather w (.forAll parameters es) d).outcome g =
      (Candidates.of w.objects parameters).tuples.foldlM (fun d arguments =>
        (gatherAll w es d).outcome (g.bindAll parameters arguments)) d

/-- Evaluating a formula and gathering effects leaves the bindings as they were, whatever comes out.
The same holds of every part on the way, so that each part finds the bindings around it and no
others. -/
theorem bindings_left_alone (w : World) (g : Assignment) :
    (∀ f : Formula, (f.eval w).leaves g = g ∧ (f.holds w).leaves g = g) ∧
    (∀ es : List Effect, (Delta.ofEffects w es).leaves g = g ∧
      ∀ d, (Delta.gatherAll w es d).leaves g = g) ∧
    Formula.Lexical w g ∧ Delta.Lexical w g := by
  refine ⟨fun f => ?_, fun es => ?_, ?_, ?_⟩
  · exact ⟨f.restores_eval.leaves_eq g, f.restores_holds.leaves_eq g⟩
  · have whole : (Delta.ofEffects w es).leaves g = g := (Delta.restores_ofEffects es).leaves_eq g
    exact ⟨whole, fun d => (Delta.restores_gatherAll es d).leaves_eq g⟩
  · constructor
    case not => exact fun f => f.outcome_holds_not g
    case and => exact fun fs => Formula.outcome_holds_and fs g
    case or => exact fun fs => Formula.outcome_holds_or fs g
    case forAll => exact fun parameters f => f.outcome_holds_forAll parameters g
    case forSome => exact fun parameters f => f.outcome_holds_forSome parameters g
  · constructor
    case all => exact fun es d => Delta.outcome_gatherAll es d g
    case when => exact fun guard es d => Delta.outcome_gather_when guard es d g
    case forAll => exact fun parameters es d => Delta.outcome_gather_forAll parameters es d g

end TypedPlanning
