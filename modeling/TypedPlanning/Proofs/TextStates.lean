import TypedPlanning.Proofs.FactLayouts

/-! States that leave as texts and come back. A reachable state is read back as itself exactly if
each of its facts has as many arguments as its predicate declares. Only the rule of a derived
predicate can break this, when its head and the declaration of its predicate differ in length. -/

namespace TypedPlanning
open Fallible

namespace Problem
variable {v : Vocabulary} {p : Problem} {domain : Definition.Domain}
  {problem : Definition.Problem} {s s' : State}

/-- No reachable state has a fact with another number of arguments than its predicate declares. -/
def KeepsArity (p : Problem) : Prop := ∀ s, p.Reachable s → ∀ f ∈ s, p.vocabulary.Fits f

theorem MadeFrom.readTexts_texts_iff (made : MadeFrom domain problem v p) (reach : p.Reachable s) :
    p.readTexts s.texts = .ok s ↔ ∀ f ∈ s, p.vocabulary.Fits f := by
  refine made.legible.readTexts_texts fun f hf => ?_
  rw [← made.vocabulary_eq]
  exact (made.accounted_of_reachable reach f hf).knows

/-- Where every derived head has the declared number of parameters, nothing else has another. -/
theorem MadeFrom.keepsArity (made : MadeFrom domain problem v p)
    (even : ∀ d ∈ domain.derived,
      p.vocabulary.Declares d.head.name d.head.parameters.length) : p.KeepsArity := by
  intro s reach f hf
  rw [← made.vocabulary_eq] at even ⊢
  obtain ⟨-, fits | ⟨r, hr, arguments, -, denoted⟩⟩ := made.accounted_of_reachable reach f hf
  · exact fits
  · obtain ⟨d, hd, translated⟩ := exists_of_mem_right (mapM_eq_ok.mp made.derived) hr
    obtain ⟨-, body, -, rfl⟩ := Vocabulary.derivedRule_eq_ok.mp translated
    rw [Vocabulary.fits_iff_of_denotes denoted, List.length_map]
    exact even d hd

theorem nextOnTexts_texts (back : p.readTexts s.texts = .ok s) (call : String) :
    p.nextOnTexts s.texts call = (p.next s call).map State.texts := by
  rw [nextOnTexts, back, ok_bind]
  cases p.next s call <;> rfl

theorem foldlM_nextOnTexts (back : ∀ s, p.Reachable s → p.readTexts s.texts = .ok s)
    (reach : p.Reachable s) (calls : List String) :
    calls.foldlM p.nextOnTexts s.texts = (calls.foldlM p.next s).map State.texts := by
  induction calls generalizing s with
  | nil => rfl
  | cons call calls ih =>
    rw [List.foldlM_cons, List.foldlM_cons, nextOnTexts_texts (back s reach)]
    cases taken : p.next s call with
    | error e => rfl
    | ok s' => exact ih (reach.next taken)

/-- Reachable states survive as texts exactly in problems where every fact keeps the declared arity.
All problems do whose derived heads are as long as the declarations of their predicates. -/
theorem texts_faithful_iff_keepsArity (built : ofDefinitions domain problem = .ok p) :
    (∀ s, p.Reachable s → (p.readTexts s.texts = .ok s ↔ ∀ f ∈ s, p.vocabulary.Fits f)) ∧
    (((∀ s, p.Reachable s → p.readTexts s.texts = .ok s) ∧
      ∀ calls : List String, calls.foldlM p.nextOnTexts p.initial.texts =
        (calls.foldlM p.next p.initial).map State.texts) ↔ p.KeepsArity) ∧
    ((∀ d ∈ domain.derived, p.vocabulary.Declares d.head.name d.head.parameters.length) →
      p.KeepsArity) := by
  obtain ⟨v, made⟩ := madeFrom_of_ofDefinitions built
  have each (s : State) (reach : p.Reachable s) := made.readTexts_texts_iff reach
  refine ⟨each, ⟨fun faithful s reach => ?_, fun keeps => ?_⟩, made.keepsArity⟩
  · exact (each s reach).mp (faithful.1 s reach)
  · have back : ∀ s, p.Reachable s → p.readTexts s.texts = .ok s :=
      fun s reach => (each s reach).mpr (keeps s reach)
    exact ⟨back, foldlM_nextOnTexts back .initial⟩

theorem texts_faithful_lamps : ∃ p, ofDefinitions lampDomain lampProblem = .ok p ∧
    ∀ s, p.Reachable s → p.readTexts s.texts = .ok s := by
  have built : ∃ p, ofDefinitions lampDomain lampProblem = .ok p ∧
      p.vocabulary.predicates.get? "lit" = some ⟨"lit", ["lamp"]⟩ := by
    refine exists_ok_and ?_
    decide +kernel
  obtain ⟨p, built, declared⟩ := built
  obtain ⟨-, faithful, even⟩ := texts_faithful_iff_keepsArity built
  refine ⟨p, built, (faithful.mpr (even fun d hd => ?_)).1⟩
  obtain rfl := List.mem_singleton.mp hd
  exact ⟨_, declared, rfl⟩

/-- A derived predicate whose head is longer than its declaration. -/
def unevenDomain : Definition.Domain where
  name := "d"
  predicates := [⟨"p", [⟨"?x", "object"⟩, ⟨"?y", "object"⟩]⟩, ⟨"q", [⟨"?x", "object"⟩]⟩]
  derived := [⟨⟨"q", [⟨"?x", "object"⟩, ⟨"?y", "object"⟩]⟩,
    .atom ⟨"p", [.variableNamed "?x", .variableNamed "?y"]⟩⟩]

def unevenProblem : Definition.Problem where
  name := "e"
  domainName := "d"
  objects := [⟨"a", "object"⟩, ⟨"b", "object"⟩]
  initial := [⟨"p", [.name "a", .name "b"]⟩]

/-- The rule derives a fact whose text is refused. -/
theorem texts_refused_uneven : ∃ p, ofDefinitions unevenDomain unevenProblem = .ok p ∧
    p.Reachable p.initial ∧
    p.readTexts p.initial.texts = .error (.call (.arityMismatch "q" 1 2)) := by
  have built : ∃ p, ofDefinitions unevenDomain unevenProblem = .ok p ∧
      (p.readTexts p.initial.texts).map Std.ExtTreeSet.toList =
        .error (.call (.arityMismatch "q" 1 2)) := by
    refine exists_ok_and ?_
    decide +kernel
  obtain ⟨p, built, refused⟩ := built
  refine ⟨p, built, .initial, ?_⟩
  cases read : p.readTexts p.initial.texts with
  | ok s => simp [read, Except.map] at refused
  | error e => simpa [read, Except.map] using refused

end Problem
end TypedPlanning
