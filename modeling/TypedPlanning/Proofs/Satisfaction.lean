import TypedPlanning.Formula
import TypedPlanning.Proofs.Evaluation
import TypedPlanning.Proofs.Fallible
import TypedPlanning.Proofs.Objects
import TypedPlanning.Proofs.Tuples
import Mathlib.Data.Set.Basic

/-! What it means that a formula holds under bindings, and that evaluation finds it out. The truth
of a formula is classical: quantifiers range over all tuples of objects of the right types, and no
order of evaluation enters. An evaluation that answers gives this truth; one that fails met an
unbound free variable or a construct that cannot be decided. -/

namespace TypedPlanning
open Fallible Evaluation

namespace Term

def value? (g : Assignment) : Term → Option Object
  | .object o => some o
  | .variableNamed x => g.get? x

def free : Term → List String
  | .object _ => []
  | .variableNamed x => [x]

theorem restores_ground (t : Term) : Restores t.ground := by
  cases t with
  | object o => exact restores_pure o
  | variableNamed x =>
    refine restores_get.bind fun g => ?_
    cases g.get? x with
    | none => exact restores_throw _
    | some o => exact restores_pure o

theorem outcome_ground_variableNamed (x : String) (g : Assignment) :
    (variableNamed x).ground.outcome g =
      match g.get? x with
      | some o => .ok o
      | none => .error (.unboundVariable x) := by
  show outcome (get >>= _) g = _
  rw [outcome_bind restores_get, outcome_get]
  show outcome (match g.get? x with
    | some o => pure o
    | none => throw (.unboundVariable x)) g = _
  cases g.get? x <;> rfl

theorem outcome_ground_eq_ok {t : Term} {g : Assignment} {o : Object} :
    t.ground.outcome g = .ok o ↔ t.value? g = some o := by
  cases t with
  | object o' => simp [ground, value?]
  | variableNamed x =>
    rw [outcome_ground_variableNamed, value?]
    cases g.get? x <;> simp

end Term

def Evaluation.Trouble (free : List String) (features : List Feature) (g : Assignment)
    (e : Error) : Prop :=
  (∃ x ∈ free, g.get? x = none ∧ e = .unboundVariable x) ∨
    ∃ feature ∈ features, e = .unsupported feature

theorem Evaluation.Trouble.mono {free wider : List String} {features more : List Feature}
    {g : Assignment} {e : Error} (hfree : free ⊆ wider) (hfeatures : features ⊆ more)
    (trouble : Trouble free features g e) : Trouble wider more g e := by
  obtain ⟨x, hx, unbound⟩ | ⟨feature, found, same⟩ := trouble
  · exact .inl ⟨x, hfree hx, unbound⟩
  · exact .inr ⟨feature, hfeatures found, same⟩

theorem Evaluation.Trouble.elim {free : List String} {features : List Feature} {g : Assignment}
    {e : Error} (trouble : Trouble free features g e) (bound : ∀ x ∈ free, g.get? x ≠ none)
    (none_set_aside : features = []) : False := by
  obtain ⟨x, hx, unbound, -⟩ | ⟨feature, found, -⟩ := trouble
  · exact bound x hx unbound
  · rw [none_set_aside] at found
    cases found

theorem Term.failsOnly_ground (t : Term) (g : Assignment) :
    FailsOnly (Trouble t.free [] g) (t.ground.outcome g) := by
  cases t with
  | object o => exact failsOnly_ok o
  | variableNamed x =>
    rw [outcome_ground_variableNamed]
    cases unbound : g.get? x with
    | none => exact failsOnly_error (.inl ⟨x, List.mem_singleton_self x, unbound, rfl⟩)
    | some o => exact failsOnly_ok o

namespace Atom

def free (a : Atom) : List String := a.terms.flatMap Term.free

def Denotes (a : Atom) (g : Assignment) (p : Fact) : Prop :=
  p.predicate = a.predicate ∧
    List.Forall₂ (fun t o => Term.value? g t = some o) a.terms p.arguments

theorem restores_ground (a : Atom) : Restores a.ground :=
  (restores_mapM Term.restores_ground).bind fun _ => restores_pure _

theorem outcome_ground (a : Atom) (g : Assignment) : a.ground.outcome g =
    (a.terms.mapM fun t : Term => t.ground.outcome g).map (Fact.mk a.predicate) := by
  show outcome (a.terms.mapM Term.ground >>= _) g = _
  rw [outcome_bind (restores_mapM Term.restores_ground), outcome_mapM Term.restores_ground]
  rfl

theorem outcome_ground_eq_ok {a : Atom} {g : Assignment} {p : Fact} :
    a.ground.outcome g = .ok p ↔ a.Denotes g p := by
  simp only [outcome_ground, map_eq_ok, mapM_eq_ok, Term.outcome_ground_eq_ok, Denotes]
  constructor
  · rintro ⟨arguments, values, rfl⟩
    exact ⟨rfl, values⟩
  · rintro ⟨same, values⟩
    exact ⟨p.arguments, values, by rw [← same]⟩

theorem denotes_eq_singleton {a : Atom} {g : Assignment} {p : Fact}
    (grounded : a.ground.outcome g = .ok p) : {q | a.Denotes g q} = ({p} : Set Fact) := by
  ext q
  show a.Denotes g q ↔ q = p
  rw [← outcome_ground_eq_ok, grounded, Except.ok.injEq, eq_comm]

theorem failsOnly_ground (a : Atom) (g : Assignment) :
    FailsOnly (Trouble a.free [] g) (a.ground.outcome g) := by
  show FailsOnly _ (outcome (a.terms.mapM Term.ground >>= _) g)
  rw [outcome_bind (restores_mapM Term.restores_ground), outcome_mapM Term.restores_ground]
  refine (failsOnly_mapM fun t ht => ?_).bind fun _ _ => failsOnly_ok _
  refine (t.failsOnly_ground g).mono fun e => Trouble.mono (fun x hx => ?_) (by simp)
  exact List.mem_flatMap.mpr ⟨t, ht, hx⟩

theorem exists_ground {a : Atom} {g : Assignment} (bound : ∀ x ∈ a.free, g.get? x ≠ none) :
    ∃ p, a.ground.outcome g = .ok p :=
  exists_ok ((a.failsOnly_ground g).mono fun _ trouble => trouble.elim bound rfl)

end Atom

def ObjectTable.Admits (t : ObjectTable) (parameters : List Parameter) (arguments : List Object) :
    Prop :=
  List.Forall₂ (fun o (p : Parameter) => o ∈ t.objects ∧ t.satisfies o p.type = true)
    arguments parameters

theorem ObjectTable.Coherent.mem_tuples_iff {t : ObjectTable} (coherent : t.Coherent)
    {parameters : List Parameter} {arguments : List Object} :
    arguments ∈ (Candidates.of t parameters).tuples ↔ t.Admits parameters arguments := by
  rw [Candidates.mem_tuples_of, ObjectTable.Admits]
  simp only [coherent.mem_lookup]

theorem Candidates.length_of_mem_tuples {t : ObjectTable} {parameters : List Parameter}
    {arguments : List Object} (admitted : arguments ∈ (of t parameters).tuples) :
    arguments.length = parameters.length := (mem_tuples_of.mp admitted).length_eq

/-- Inside a binder a variable is bound by it or was bound before. -/
theorem Assignment.get?_bindAll_eq_none {g : Assignment} {parameters : List Parameter}
    {arguments : List Object} (fits : arguments.length = parameters.length) {x : String} :
    (g.bindAll parameters arguments).get? x = none ↔
      x ∉ parameters.map Parameter.variableName ∧ g.get? x = none := by
  induction parameters generalizing g arguments with
  | nil => simp [Assignment.bindAll]
  | cons p parameters ih =>
    obtain _ | ⟨o, arguments⟩ := arguments
    · simp at fits
    · rw [bindAll_cons, ih (Nat.succ.inj fits), get?_bind]
      by_cases same : x = p.variableName
      · simp [same]
      · simp [same]

theorem Assignment.get?_ofArguments_ne_none {parameters : List Parameter}
    {arguments : List Object} (fits : arguments.length = parameters.length) {x : String}
    (named : x ∈ parameters.map Parameter.variableName) :
    (ofArguments parameters arguments).get? x ≠ none :=
  fun unbound => ((get?_bindAll_eq_none fits).mp unbound).1 named

/-- Trouble inside a binder is trouble outside of it, with a variable that the binder leaves
free. -/
theorem Evaluation.Trouble.of_bindAll {free : List String} {features : List Feature}
    {g : Assignment} {e : Error} {parameters : List Parameter} {arguments : List Object}
    (fits : arguments.length = parameters.length)
    (trouble : Trouble free features (g.bindAll parameters arguments) e) :
    Trouble (free.filter (· ∉ parameters.map Parameter.variableName)) features g e := by
  obtain ⟨x, hx, unbound, same⟩ | unsupported := trouble
  · obtain ⟨outside, unbound⟩ := (Assignment.get?_bindAll_eq_none fits).mp unbound
    exact .inl ⟨x, List.mem_filter.mpr ⟨hx, by simpa using outside⟩, unbound, same⟩
  · exact .inr unsupported

namespace Formula

/-- Induction that knows every member of a conjunction or disjunction. -/
theorem induction {P : Formula → Prop} (atom : ∀ a, P (.atom a))
    (equal : ∀ left right, P (.equal left right)) (not : ∀ f, P f → P (.not f))
    (and : ∀ fs, (∀ f ∈ fs, P f) → P (.and fs)) (or : ∀ fs, (∀ f ∈ fs, P f) → P (.or fs))
    (forAll : ∀ parameters f, P f → P (.forAll parameters f))
    (forSome : ∀ parameters f, P f → P (.forSome parameters f))
    (unsupported : ∀ feature, P (.unsupported feature)) : ∀ f, P f :=
  @Formula.rec P (fun fs => ∀ f ∈ fs, P f) atom equal not and or forAll forSome unsupported
    (by simp) fun f fs hf hfs => List.forall_mem_cons.mpr ⟨hf, hfs⟩

mutual

def free : Formula → List String
  | .atom a => a.free
  | .equal left right => left.free ++ right.free
  | .not f => f.free
  | .and fs => freeIn fs
  | .or fs => freeIn fs
  | .forAll parameters f => f.free.filter (· ∉ parameters.map Parameter.variableName)
  | .forSome parameters f => f.free.filter (· ∉ parameters.map Parameter.variableName)
  | .unsupported _ => []

def freeIn : List Formula → List String
  | [] => []
  | f :: fs => f.free ++ freeIn fs

end

mutual

def features : Formula → List Feature
  | .atom _ => []
  | .equal _ _ => []
  | .not f => f.features
  | .and fs => featuresIn fs
  | .or fs => featuresIn fs
  | .forAll _ f => f.features
  | .forSome _ f => f.features
  | .unsupported feature => [feature]

def featuresIn : List Formula → List Feature
  | [] => []
  | f :: fs => f.features ++ featuresIn fs

end

@[simp] theorem mem_freeIn {x : String} {fs : List Formula} :
    x ∈ freeIn fs ↔ ∃ f ∈ fs, x ∈ f.free := by
  induction fs with
  | nil => simp [freeIn]
  | cons f fs ih => simp [freeIn, ih]

@[simp] theorem mem_featuresIn {feature : Feature} {fs : List Formula} :
    feature ∈ featuresIn fs ↔ ∃ f ∈ fs, feature ∈ f.features := by
  induction fs with
  | nil => simp [featuresIn]
  | cons f fs ih => simp [featuresIn, ih]

theorem firstUnsupported_eq_head? (f : Formula) : f.firstUnsupported = f.features.head? := by
  have list (fs : List Formula) (ih : ∀ f ∈ fs, f.firstUnsupported = f.features.head?) :
      firstUnsupportedIn fs = (featuresIn fs).head? := by
    induction fs with
    | nil => rfl
    | cons f fs ih' =>
      obtain ⟨hf, hfs⟩ := List.forall_mem_cons.mp ih
      simp [firstUnsupportedIn, featuresIn, hf, ih' hfs]
  induction f using Formula.induction with
  | atom a => rfl
  | equal left right => rfl
  | not f ih => simpa [firstUnsupported, features] using ih
  | and fs ih => simpa [firstUnsupported, features] using list fs ih
  | or fs ih => simpa [firstUnsupported, features] using list fs ih
  | forAll parameters f ih => simpa [firstUnsupported, features] using ih
  | forSome parameters f ih => simpa [firstUnsupported, features] using ih
  | unsupported feature => rfl

mutual

/-- Truth in a world, without an order of evaluation. -/
def Satisfied (w : World) : Formula → Assignment → Prop
  | .atom a, g => ∃ p ∈ w.state, a.Denotes g p
  | .equal left right, g => ∃ o, left.value? g = some o ∧ right.value? g = some o
  | .not f, g => ¬ f.Satisfied w g
  | .and fs, g => AllSatisfied w fs g
  | .or fs, g => AnySatisfied w fs g
  | .forAll parameters f, g => ∀ arguments, w.objects.Admits parameters arguments →
      f.Satisfied w (g.bindAll parameters arguments)
  | .forSome parameters f, g => ∃ arguments, w.objects.Admits parameters arguments ∧
      f.Satisfied w (g.bindAll parameters arguments)
  | .unsupported _, _ => False

def AllSatisfied (w : World) : List Formula → Assignment → Prop
  | [], _ => True
  | f :: fs, g => f.Satisfied w g ∧ AllSatisfied w fs g

def AnySatisfied (w : World) : List Formula → Assignment → Prop
  | [], _ => False
  | f :: fs, g => f.Satisfied w g ∨ AnySatisfied w fs g

end

variable {w : World} {g : Assignment}

@[simp] theorem satisfied_and {fs : List Formula} :
    (Formula.and fs).Satisfied w g ↔ ∀ f ∈ fs, f.Satisfied w g := by
  rw [Satisfied]
  induction fs with
  | nil => simp [AllSatisfied]
  | cons f fs ih => simp [AllSatisfied, ih]

@[simp] theorem satisfied_or {fs : List Formula} :
    (Formula.or fs).Satisfied w g ↔ ∃ f ∈ fs, f.Satisfied w g := by
  rw [Satisfied]
  induction fs with
  | nil => simp [AnySatisfied]
  | cons f fs ih => simp [AnySatisfied, ih]

theorem holds_and (fs : List Formula) : (Formula.and fs).holds w = fs.allM (holds w) := by
  rw [holds]
  induction fs with
  | nil => rfl
  | cons f fs ih => rw [allHold, List.allM_cons, ih]

theorem holds_or (fs : List Formula) : (Formula.or fs).holds w = fs.anyM (holds w) := by
  rw [holds]
  induction fs with
  | nil => rfl
  | cons f fs ih => rw [anyHolds, List.anyM_cons, ih]

theorem holds_forAll (parameters : List Parameter) (f : Formula) :
    (Formula.forAll parameters f).holds w =
      (Candidates.of w.objects parameters).tuples.allM fun arguments =>
        Evaluation.under parameters arguments (f.holds w) := by
  rw [holds, Candidates.forIn_eq]
  induction (Candidates.of w.objects parameters).tuples with
  | nil => rfl
  | cons arguments tuples ih =>
    rw [List.forIn_cons, List.allM_cons, bind_assoc, bind_assoc]
    refine bind_congr fun b => ?_
    cases b with
    | false => rfl
    | true => exact ih

theorem holds_forSome (parameters : List Parameter) (f : Formula) :
    (Formula.forSome parameters f).holds w =
      (Candidates.of w.objects parameters).tuples.anyM fun arguments =>
        Evaluation.under parameters arguments (f.holds w) := by
  rw [holds, Candidates.forIn_eq]
  induction (Candidates.of w.objects parameters).tuples with
  | nil => rfl
  | cons arguments tuples ih =>
    rw [List.forIn_cons, List.anyM_cons, bind_assoc, bind_assoc]
    refine bind_congr fun b => ?_
    cases b with
    | false => exact ih
    | true => rfl

theorem restores_holds (f : Formula) : Restores (f.holds w) := by
  induction f using Formula.induction with
  | atom a => rw [holds]; exact (Atom.restores_ground a).bind fun p => restores_pure _
  | equal left right =>
    rw [holds]
    exact left.restores_ground.bind fun _ => right.restores_ground.bind fun _ => restores_pure _
  | not f ih => rw [holds]; exact ih.bind fun b => restores_pure _
  | and fs ih => rw [holds_and]; exact restores_allM ih
  | or fs ih => rw [holds_or]; exact restores_anyM ih
  | forAll parameters f ih =>
    rw [holds_forAll]
    exact restores_allM fun arguments _ => ih.under parameters arguments
  | forSome parameters f ih =>
    rw [holds_forSome]
    exact restores_anyM fun arguments _ => ih.under parameters arguments
  | unsupported feature => rw [holds]; exact restores_throw _

/-! Every part of a formula is evaluated under the bindings outside of it, whatever has been
evaluated before it. -/

theorem outcome_holds_not (f : Formula) (g : Assignment) :
    ((Formula.not f).holds w).outcome g = (f.holds w).outcome g >>= fun b => .ok !b := by
  rw [holds, outcome_bind (restores_holds f)]
  rfl

theorem outcome_holds_and (fs : List Formula) (g : Assignment) :
    ((Formula.and fs).holds w).outcome g = fs.allM fun f => (f.holds w).outcome g := by
  rw [holds_and, outcome_allM fun f => restores_holds f]

theorem outcome_holds_or (fs : List Formula) (g : Assignment) :
    ((Formula.or fs).holds w).outcome g = fs.anyM fun f => (f.holds w).outcome g := by
  rw [holds_or, outcome_anyM fun f => restores_holds f]

theorem outcome_holds_forAll (parameters : List Parameter) (f : Formula) (g : Assignment) :
    ((Formula.forAll parameters f).holds w).outcome g =
      (Candidates.of w.objects parameters).tuples.allM fun arguments =>
        (f.holds w).outcome (g.bindAll parameters arguments) := by
  rw [holds_forAll, outcome_allM fun _ => (restores_holds f).under _ _]
  simp only [outcome_under]

theorem outcome_holds_forSome (parameters : List Parameter) (f : Formula) (g : Assignment) :
    ((Formula.forSome parameters f).holds w).outcome g =
      (Candidates.of w.objects parameters).tuples.anyM fun arguments =>
        (f.holds w).outcome (g.bindAll parameters arguments) := by
  rw [holds_forSome, outcome_anyM fun _ => (restores_holds f).under _ _]
  simp only [outcome_under]

/-- An answer is the truth of the formula. -/
theorem answers_holds (coherent : w.objects.Coherent) (f : Formula) (g : Assignment) :
    Answers ((f.holds w).outcome g) (f.Satisfied w g) := by
  induction f using Formula.induction generalizing g with
  | atom a =>
    rw [holds, Satisfied, outcome_bind (Atom.restores_ground a)]
    intro b hb
    obtain ⟨p, hp, same⟩ := bind_eq_ok.mp hb
    obtain rfl := Except.ok.inj same
    have denoted (q : Fact) : a.Denotes g q ↔ q = p :=
      Set.ext_iff.mp (Atom.denotes_eq_singleton hp) q
    simp only [Std.ExtTreeSet.contains_iff_mem, denoted, exists_eq_right]
  | equal left right =>
    rw [holds, Satisfied, outcome_bind left.restores_ground]
    intro b hb
    obtain ⟨l, hl, hb⟩ := bind_eq_ok.mp hb
    rw [outcome_bind right.restores_ground] at hb
    obtain ⟨r, hr, same⟩ := bind_eq_ok.mp hb
    obtain rfl := Except.ok.inj same
    rw [Term.outcome_ground_eq_ok] at hl hr
    simp only [hl, hr, beq_iff_eq, Option.some.injEq, exists_eq_left']
    exact eq_comm
  | not f ih =>
    rw [outcome_holds_not, Satisfied]
    exact (ih g).not
  | and fs ih =>
    rw [outcome_holds_and, satisfied_and]
    exact answers_allM fun f hf => ih f hf g
  | or fs ih =>
    rw [outcome_holds_or, satisfied_or]
    exact answers_anyM fun f hf => ih f hf g
  | forAll parameters f ih =>
    rw [outcome_holds_forAll, Satisfied]
    simp only [← coherent.mem_tuples_iff]
    exact answers_allM fun arguments _ => ih _
  | forSome parameters f ih =>
    rw [outcome_holds_forSome, Satisfied]
    simp only [← coherent.mem_tuples_iff]
    exact answers_anyM fun arguments _ => ih _
  | unsupported feature =>
    rw [holds]
    rintro b ⟨⟩

theorem failsOnly_holds (f : Formula) (g : Assignment) :
    FailsOnly (Trouble f.free f.features g) ((f.holds w).outcome g) := by
  induction f using Formula.induction generalizing g with
  | atom a =>
    rw [holds, outcome_bind (Atom.restores_ground a)]
    exact (a.failsOnly_ground g).bind fun _ _ => failsOnly_ok _
  | equal left right =>
    rw [holds, outcome_bind left.restores_ground]
    refine ((left.failsOnly_ground g).mono fun e => ?_).bind fun _ _ => ?_
    · exact Trouble.mono (by simp [free]) (by simp)
    · rw [outcome_bind right.restores_ground]
      refine ((right.failsOnly_ground g).mono fun e => ?_).bind fun _ _ => failsOnly_ok _
      exact Trouble.mono (by simp [free]) (by simp)
  | not f ih =>
    rw [outcome_holds_not]
    exact (ih g).bind fun _ _ => failsOnly_ok _
  | and fs ih =>
    rw [outcome_holds_and]
    refine failsOnly_allM fun f hf => (ih f hf g).mono fun e => Trouble.mono ?_ ?_
    · exact fun x hx => mem_freeIn.mpr ⟨f, hf, hx⟩
    · exact fun feature found => mem_featuresIn.mpr ⟨f, hf, found⟩
  | or fs ih =>
    rw [outcome_holds_or]
    refine failsOnly_anyM fun f hf => (ih f hf g).mono fun e => Trouble.mono ?_ ?_
    · exact fun x hx => mem_freeIn.mpr ⟨f, hf, hx⟩
    · exact fun feature found => mem_featuresIn.mpr ⟨f, hf, found⟩
  | forAll parameters f ih =>
    rw [outcome_holds_forAll]
    refine failsOnly_allM fun arguments admitted => ?_
    exact (ih _).mono fun e => Trouble.of_bindAll (Candidates.length_of_mem_tuples admitted)
  | forSome parameters f ih =>
    rw [outcome_holds_forSome]
    refine failsOnly_anyM fun arguments admitted => ?_
    exact (ih _).mono fun e => Trouble.of_bindAll (Candidates.length_of_mem_tuples admitted)
  | unsupported feature =>
    rw [holds]
    exact failsOnly_error (.inr ⟨feature, List.mem_singleton_self _, rfl⟩)

theorem restores_eval (f : Formula) : Restores (f.eval w) := by
  unfold eval
  split
  · exact restores_throw _
  · exact restores_holds f

theorem answers_eval (coherent : w.objects.Coherent) (f : Formula) (g : Assignment) :
    Answers ((f.eval w).outcome g) (f.Satisfied w g) := by
  unfold eval
  split
  · rintro b ⟨⟩
  · exact answers_holds coherent f g

theorem failsOnly_eval (f : Formula) (g : Assignment) :
    FailsOnly (Trouble f.free f.features g) ((f.eval w).outcome g) := by
  unfold eval
  split
  · next feature first =>
    rw [firstUnsupported_eq_head?] at first
    exact failsOnly_error (.inr ⟨feature, List.mem_of_head? first, rfl⟩)
  · exact failsOnly_holds f g

theorem exists_eval_eq (coherent : w.objects.Coherent) {f : Formula}
    (bound : ∀ x ∈ f.free, g.get? x ≠ none) (decidable : f.features = []) :
    ∃ b, (f.eval w).outcome g = .ok b ∧ (b = true ↔ f.Satisfied w g) := by
  obtain ⟨b, answer⟩ : ∃ b, (f.eval w).outcome g = .ok b :=
    exists_ok ((f.failsOnly_eval g).mono fun e trouble => trouble.elim bound decidable)
  exact ⟨b, answer, f.answers_eval coherent g b answer⟩

theorem features_eq_nil_of_eval {f : Formula} {b : Bool}
    (answer : (f.eval w).outcome g = .ok b) : f.features = [] := by
  unfold eval at answer
  split at answer
  · cases answer
  · next none_found =>
    rw [firstUnsupported_eq_head?] at none_found
    exact List.head?_eq_none_iff.mp none_found

end Formula
end TypedPlanning
