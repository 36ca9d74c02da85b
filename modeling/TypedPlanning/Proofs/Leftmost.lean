import TypedPlanning.Proofs.Change
import Mathlib.Data.List.Lex

/-! What cannot be decided fails every evaluation. A way down to such a construct is the list of
the branches taken, each counted from the left, wherever there is more than one. So the leftmost
construct has the least way in lexicographic order, and it is the one that is told, whatever the
world and the bindings are. -/

namespace TypedPlanning
open Fallible Evaluation

/-- The construct stands at the end of the way down from the formula. -/
inductive Formula.Carries : Formula → List ℕ → Feature → Prop where
  | unsupported (feature : Feature) : Carries (.unsupported feature) [] feature
  | not {f : Formula} {way : List ℕ} {feature : Feature} :
    Carries f way feature → Carries (.not f) way feature
  | and {fs : List Formula} {i : ℕ} {f : Formula} {way : List ℕ} {feature : Feature} :
    fs[i]? = some f → Carries f way feature → Carries (.and fs) (i :: way) feature
  | or {fs : List Formula} {i : ℕ} {f : Formula} {way : List ℕ} {feature : Feature} :
    fs[i]? = some f → Carries f way feature → Carries (.or fs) (i :: way) feature
  | forAll {parameters : List Parameter} {f : Formula} {way : List ℕ} {feature : Feature} :
    Carries f way feature → Carries (.forAll parameters f) way feature
  | forSome {parameters : List Parameter} {f : Formula} {way : List ℕ} {feature : Feature} :
    Carries f way feature → Carries (.forSome parameters f) way feature

/-- The construct stands at the end of the way down from the effect. The first branch of a guarded
effect is its guard. -/
inductive Effect.Carries : Effect → List ℕ → Feature → Prop where
  | unsupported (feature : Feature) : Carries (.unsupported feature) [] feature
  | guard {guard : Formula} {effects : List Effect} {way : List ℕ} {feature : Feature} :
    guard.Carries way feature → Carries (.when guard effects) (0 :: way) feature
  | guarded {guard : Formula} {effects : List Effect} {i : ℕ} {e : Effect} {way : List ℕ}
    {feature : Feature} : effects[i]? = some e → Carries e way feature →
    Carries (.when guard effects) ((i + 1) :: way) feature
  | forAll {parameters : List Parameter} {effects : List Effect} {i : ℕ} {e : Effect}
    {way : List ℕ} {feature : Feature} : effects[i]? = some e → Carries e way feature →
    Carries (.forAll parameters effects) (i :: way) feature

inductive CarriesIn {α : Type} (carries : α → List ℕ → Feature → Prop) (xs : List α) :
    List ℕ → Feature → Prop where
  | branch {i : ℕ} {x : α} {way : List ℕ} {feature : Feature} :
    xs[i]? = some x → carries x way feature → CarriesIn carries xs (i :: way) feature

/-- The construct stands at the end of a way, and no way to a construct comes before this one. -/
def Leftmost (carries : List ℕ → Feature → Prop) (feature : Feature) : Prop :=
  ∃ way, carries way feature ∧ ∀ way' feature', carries way' feature' → ¬way' < way

/-- The leftmost construct is the one given, or there is none. -/
def Finds (carries : List ℕ → Feature → Prop) : Option Feature → Prop
  | some feature => Leftmost carries feature
  | none => ∀ way feature, ¬carries way feature

/-- A way that begins in the first branch, or one that begins in a later branch. -/
inductive Beside (first others : List ℕ → Feature → Prop) : List ℕ → Feature → Prop where
  | first {way : List ℕ} {feature : Feature} :
    first way feature → Beside first others (0 :: way) feature
  | other {i : ℕ} {way : List ℕ} {feature : Feature} :
    others (i :: way) feature → Beside first others ((i + 1) :: way) feature

section Finds
variable {α : Type} {first : List ℕ → Feature → Prop} {carries : α → List ℕ → Feature → Prop}
  {xs : List α} {found found' : Option Feature}

theorem Finds.congr {others : List ℕ → Feature → Prop} (finds : Finds first found)
    (same : ∀ way feature, others way feature ↔ first way feature) : Finds others found := by
  obtain rfl : others = first := funext₂ fun way feature => propext (same way feature)
  exact finds

theorem Finds.beside (finds : Finds first found) (finds' : Finds (CarriesIn carries xs) found') :
    Finds (Beside first (CarriesIn carries xs)) (found <|> found') := by
  obtain _ | feature := found
  · obtain _ | feature' := found'
    · rintro _ _ (there | there)
      · exact finds _ _ there
      · exact finds' _ _ there
    · obtain ⟨_, @⟨i, x, way, _, listed, there⟩, least⟩ := finds'
      refine ⟨(i + 1) :: way, .other (.branch listed there), ?_⟩
      rintro _ _ (elsewhere | elsewhere)
      · exact absurd elsewhere (finds _ _)
      · have notBefore := least _ _ elsewhere
        simpa only [List.cons_lt_cons_iff, Nat.add_lt_add_iff_right, Nat.add_right_cancel_iff]
          using notBefore
  · obtain ⟨way, there, least⟩ := finds
    refine ⟨0 :: way, .first there, ?_⟩
    rintro _ _ (elsewhere | elsewhere)
    · simpa [List.cons_lt_cons_iff] using least _ _ elsewhere
    · simp [List.cons_lt_cons_iff]

theorem carriesIn_cons {x : α} {way : List ℕ} {feature : Feature} :
    CarriesIn carries (x :: xs) way feature ↔
      Beside (carries x) (CarriesIn carries xs) way feature := by
  constructor
  · rintro @⟨_ | i, y, way, _, listed, there⟩
    · obtain rfl := Option.some.inj listed
      exact .first there
    · exact .other (.branch listed there)
  · rintro (there | there)
    · exact .branch rfl there
    · obtain ⟨listed, there⟩ := there
      exact .branch (List.getElem?_cons_succ.trans listed) there

theorem finds_findSome {search : α → Option Feature}
    (finds : ∀ x ∈ xs, Finds (carries x) (search x)) :
    Finds (CarriesIn carries xs) (xs.findSome? search) := by
  induction xs with
  | nil =>
    rintro _ _ @⟨i, x, way, _, listed, -⟩
    cases listed
  | cons x xs ih =>
    obtain ⟨first, others⟩ := List.forall_mem_cons.mp finds
    have both := (Finds.beside first (ih others)).congr fun _ _ => carriesIn_cons
    rw [List.findSome?_cons]
    cases found : search x <;> simpa [found] using both

theorem Finds.eq_some_iff (finds : Finds first found)
    (unique : ∀ {way feature feature'}, first way feature → first way feature' →
      feature' = feature) {feature : Feature} : found = some feature ↔ Leftmost first feature := by
  constructor
  · rintro rfl
    exact finds
  · rintro ⟨way, there, least⟩
    obtain _ | feature' := found
    · exact absurd there (finds _ _)
    · obtain ⟨way', there', least'⟩ := finds
      obtain rfl : way' = way := by
        obtain before | same | before := lt_trichotomy way' way
        · exact absurd before (least _ _ there')
        · exact same
        · exact absurd before (least' _ _ there)
      rw [unique there there']

end Finds

namespace Formula

theorem Carries.unique {f : Formula} {way : List ℕ} {feature feature' : Feature}
    (there : f.Carries way feature) (there' : f.Carries way feature') : feature' = feature := by
  induction there with
  | unsupported =>
    cases there'
    rfl
  | not _ ih => cases there' with | not there' => exact ih there'
  | and listed _ ih =>
    cases there' with
    | and listed' there' =>
      obtain rfl := Option.some.inj (listed.symm.trans listed')
      exact ih there'
  | or listed _ ih =>
    cases there' with
    | or listed' there' =>
      obtain rfl := Option.some.inj (listed.symm.trans listed')
      exact ih there'
  | forAll _ ih => cases there' with | forAll there' => exact ih there'
  | forSome _ ih => cases there' with | forSome there' => exact ih there'

theorem firstUnsupportedIn_eq_findSome? (fs : List Formula) :
    firstUnsupportedIn fs = fs.findSome? firstUnsupported := by
  induction fs with
  | nil => rfl
  | cons f fs ih =>
    rw [firstUnsupportedIn, ih, List.findSome?_cons]
    cases f.firstUnsupported <;> rfl

theorem finds_firstUnsupported (f : Formula) : Finds f.Carries f.firstUnsupported := by
  induction f using Formula.induction with
  | atom a => rintro _ _ ⟨⟩
  | equal left right => rintro _ _ ⟨⟩
  | not f ih =>
    refine ih.congr fun _ _ => ⟨fun there => ?_, .not⟩
    cases there with | not there => exact there
  | and fs ih =>
    rw [firstUnsupported, firstUnsupportedIn_eq_findSome?]
    refine (finds_findSome ih).congr fun _ _ => ⟨fun there => ?_, fun there => ?_⟩
    · cases there with | and listed there => exact .branch listed there
    · cases there with | branch listed there => exact .and listed there
  | or fs ih =>
    rw [firstUnsupported, firstUnsupportedIn_eq_findSome?]
    refine (finds_findSome ih).congr fun _ _ => ⟨fun there => ?_, fun there => ?_⟩
    · cases there with | or listed there => exact .branch listed there
    · cases there with | branch listed there => exact .or listed there
  | forAll parameters f ih =>
    refine ih.congr fun _ _ => ⟨fun there => ?_, .forAll⟩
    cases there with | forAll there => exact there
  | forSome parameters f ih =>
    refine ih.congr fun _ _ => ⟨fun there => ?_, .forSome⟩
    cases there with | forSome there => exact there
  | unsupported feature => exact ⟨[], .unsupported feature, fun way _ _ => List.not_lt_nil way⟩

end Formula

namespace Effect

theorem Carries.unique {e : Effect} {way : List ℕ} {feature feature' : Feature}
    (there : e.Carries way feature) (there' : e.Carries way feature') : feature' = feature := by
  induction there with
  | unsupported =>
    cases there'
    rfl
  | guard there => cases there' with | guard there' => exact there.unique there'
  | guarded listed _ ih =>
    cases there' with
    | guarded listed' there' =>
      obtain rfl := Option.some.inj (listed.symm.trans listed')
      exact ih there'
  | forAll listed _ ih =>
    cases there' with
    | forAll listed' there' =>
      obtain rfl := Option.some.inj (listed.symm.trans listed')
      exact ih there'

theorem firstUnsupportedIn_eq_findSome? (es : List Effect) :
    firstUnsupportedIn es = es.findSome? firstUnsupported := by
  induction es with
  | nil => rfl
  | cons e es ih =>
    rw [firstUnsupportedIn, ih, List.findSome?_cons]
    cases e.firstUnsupported <;> rfl

theorem finds_firstUnsupported (e : Effect) : Finds e.Carries e.firstUnsupported := by
  induction e using Effect.induction with
  | add a => rintro _ _ ⟨⟩
  | delete a => rintro _ _ ⟨⟩
  | when guard effects ih =>
    rw [firstUnsupported, firstUnsupportedIn_eq_findSome?]
    have both := guard.finds_firstUnsupported.beside (finds_findSome ih)
    refine both.congr fun _ _ => ⟨fun there => ?_, fun there => ?_⟩
    · cases there with
      | guard there => exact .first there
      | guarded listed there => exact .other (.branch listed there)
    · cases there with
      | first there => exact .guard there
      | other there => cases there with | branch listed there => exact .guarded listed there
  | forAll parameters effects ih =>
    rw [firstUnsupported, firstUnsupportedIn_eq_findSome?]
    refine (finds_findSome ih).congr fun _ _ => ⟨fun there => ?_, fun there => ?_⟩
    · cases there with | forAll listed there => exact .branch listed there
    · cases there with | branch listed there => exact .forAll listed there
  | unsupported feature => exact ⟨[], .unsupported feature, fun way _ _ => List.not_lt_nil way⟩

theorem finds_firstUnsupportedIn (es : List Effect) :
    Finds (CarriesIn Carries es) (firstUnsupportedIn es) := by
  rw [firstUnsupportedIn_eq_findSome?]
  exact finds_findSome fun e _ => e.finds_firstUnsupported

theorem carriesIn_unique {es : List Effect} {way : List ℕ} {feature feature' : Feature}
    (there : CarriesIn Carries es way feature) (there' : CarriesIn Carries es way feature') :
    feature' = feature := by
  obtain ⟨listed, there⟩ := there
  obtain ⟨listed', there'⟩ := there'
  obtain rfl := Option.some.inj (listed.symm.trans listed')
  exact there.unique there'

end Effect

/-- Whatever the bindings are, the evaluation fails with the leftmost construct if there is one, and
with no construct otherwise. -/
structure Evaluation.Loud {α : Type} (x : Evaluation α) (carries : List ℕ → Feature → Prop) :
    Prop where
  first : ∀ g feature, x.outcome g = .error (.unsupported feature) ↔ Leftmost carries feature
  any : ∀ g, (∃ feature, x.outcome g = .error (.unsupported feature)) ↔
    ∃ way feature, carries way feature

theorem Evaluation.Trouble.mem_features {free : List String} {features : List Feature}
    {g : Assignment} {feature : Feature}
    (trouble : Trouble free features g (.unsupported feature)) : feature ∈ features := by
  obtain ⟨x, -, -, same⟩ | ⟨feature', carried, same⟩ := trouble
  · cases same
  · cases same
    exact carried

/-- An evaluation that looks for constructs first is loud if it looks in all places. -/
theorem Finds.loud {α : Type} {x : Evaluation α} {carries : List ℕ → Feature → Prop}
    {free : List String} {features : List Feature} (finds : Finds carries features.head?)
    (unique : ∀ {way feature feature'}, carries way feature → carries way feature' →
      feature' = feature)
    (told : ∀ g feature,
      features.head? = some feature → x.outcome g = .error (.unsupported feature))
    (fails : ∀ g, FailsOnly (Trouble free features g) (x.outcome g)) : x.Loud carries := by
  have first (g : Assignment) (feature : Feature) :
      x.outcome g = .error (.unsupported feature) ↔ features.head? = some feature := by
    refine ⟨fun failed => ?_, told g feature⟩
    cases head : features.head? with
    | none =>
      have carried := (fails g _ failed).mem_features
      rw [List.head?_eq_none_iff.mp head] at carried
      cases carried
    | some feature' =>
      cases (told g feature' head).symm.trans failed
      rfl
  constructor
  · intro g feature
    rw [first, finds.eq_some_iff unique]
  · intro g
    simp only [first]
    constructor
    · rintro ⟨feature, head⟩
      rw [head] at finds
      obtain ⟨way, there, -⟩ := finds
      exact ⟨way, feature, there⟩
    · rintro ⟨way, feature, there⟩
      refine Option.ne_none_iff_exists'.mp fun none => ?_
      rw [none] at finds
      exact finds way feature there

/-- What cannot be decided is told wherever it stands, in formulas and in effects. -/
theorem leftmost_unsupported_told (w : World) :
    (∀ f : Formula, (f.eval w).Loud f.Carries) ∧
    ∀ es : List Effect, (Delta.ofEffects w es).Loud (CarriesIn Effect.Carries es) := by
  constructor
  · intro f
    have finds := f.finds_firstUnsupported
    rw [Formula.firstUnsupported_eq_head?] at finds
    refine finds.loud Formula.Carries.unique (fun g feature first => ?_) f.failsOnly_eval
    rw [← Formula.firstUnsupported_eq_head?] at first
    rw [Formula.eval, first]
    rfl
  · intro es
    have finds := Effect.finds_firstUnsupportedIn es
    rw [Effect.firstUnsupportedIn_eq_head?] at finds
    refine finds.loud Effect.carriesIn_unique (fun g feature first => ?_)
      (Delta.failsOnly_ofEffects es)
    rw [← Effect.firstUnsupportedIn_eq_head?] at first
    rw [Delta.ofEffects, first]
    rfl

end TypedPlanning
