import TypedPlanning.Proofs.Sweeps
import Mathlib.Order.Bounds.Basic

/-! Closing under rules that never ask for the absence of a fact. Such a body stays true while facts
are added. So nothing that the rules derive on the way can turn out to be wrong later, and closing
arrives at the least state that contains the given one and is closed under all rules, whatever
their order. -/

namespace TypedPlanning
open Fallible Evaluation

namespace Formula

mutual

/-- Every atom stands under an even number of negations if `positive`, under an odd number
otherwise. Nothing is asked of equalities. -/
def signed : Formula → Bool → Bool
  | .atom _, positive => positive
  | .equal _ _, _ => true
  | .not f, positive => f.signed (!positive)
  | .and fs, positive => signedIn fs positive
  | .or fs, positive => signedIn fs positive
  | .forAll _ f, positive => f.signed positive
  | .forSome _ f, positive => f.signed positive
  | .unsupported _, _ => true

def signedIn : List Formula → Bool → Bool
  | [], _ => true
  | f :: fs, positive => f.signed positive && signedIn fs positive

end

@[simp] theorem signedIn_eq_true {fs : List Formula} {positive : Bool} :
    signedIn fs positive = true ↔ ∀ f ∈ fs, f.signed positive = true := by
  induction fs with
  | nil => simp [signedIn]
  | cons f fs ih => simp [signedIn, ih]

mutual

/-- The same, where only atoms over the given predicates count. -/
def signedOver (names : String → Bool) : Formula → Bool → Bool
  | .atom a, positive => positive || !names a.predicate
  | .equal _ _, _ => true
  | .not f, positive => f.signedOver names (!positive)
  | .and fs, positive => signedOverIn names fs positive
  | .or fs, positive => signedOverIn names fs positive
  | .forAll _ f, positive => f.signedOver names positive
  | .forSome _ f, positive => f.signedOver names positive
  | .unsupported _, _ => true

def signedOverIn (names : String → Bool) : List Formula → Bool → Bool
  | [], _ => true
  | f :: fs, positive => f.signedOver names positive && signedOverIn names fs positive

end

variable {names : String → Bool} {positive : Bool} {f : Formula}

@[simp] theorem signedOverIn_eq_true {fs : List Formula} :
    signedOverIn names fs positive = true ↔ ∀ f ∈ fs, f.signedOver names positive = true := by
  induction fs with
  | nil => simp [signedOverIn]
  | cons f fs ih => simp [signedOverIn, ih]

theorem signedOver_of_signed (signed : f.signed positive = true) :
    f.signedOver names positive = true := by
  induction f using Formula.induction generalizing positive with
  | atom a => exact Bool.or_eq_true_iff.mpr (.inl signed)
  | equal left right => rfl
  | not f ih => exact ih signed
  | and fs ih =>
    rw [Formula.signed, signedIn_eq_true] at signed
    rw [signedOver, signedOverIn_eq_true]
    exact fun f hf => ih f hf (signed f hf)
  | or fs ih =>
    rw [Formula.signed, signedIn_eq_true] at signed
    rw [signedOver, signedOverIn_eq_true]
    exact fun f hf => ih f hf (signed f hf)
  | forAll parameters f ih => exact ih signed
  | forSome parameters f ih => exact ih signed
  | unsupported feature => rfl

variable {objects : ObjectTable} {s t : State} {g : Assignment}

/-- Between states that agree on all other predicates, truth is kept by adding facts over the given
ones if atoms over these stand under an even number of negations, and by taking facts away if under
an odd number. A negation exchanges the two states and the two cases. -/
theorem satisfied_of_signedOver (signed : f.signedOver names positive = true)
    (le : if positive then s ≤ t else t ≤ s)
    (same : ∀ p, names p.predicate = false → (p ∈ s ↔ p ∈ t))
    (holds : f.Satisfied ⟨objects, s⟩ g) : f.Satisfied ⟨objects, t⟩ g := by
  induction f using Formula.induction generalizing positive s t g with
  | atom a =>
    obtain ⟨p, hp, denoted⟩ := holds
    refine ⟨p, ?_, denoted⟩
    rw [signedOver, Bool.or_eq_true, Bool.not_eq_true', ← denoted.1] at signed
    obtain rfl | other := signed
    · exact le p hp
    · exact (same p other).mp hp
  | equal left right => exact holds
  | not f ih =>
    rw [signedOver] at signed
    rw [Satisfied] at holds ⊢
    refine fun later => holds (ih signed ?_ (fun p other => (same p other).symm) later)
    cases positive <;> exact le
  | and fs ih =>
    rw [signedOver, signedOverIn_eq_true] at signed
    rw [satisfied_and] at holds ⊢
    exact fun f hf => ih f hf (signed f hf) le same (holds f hf)
  | or fs ih =>
    rw [signedOver, signedOverIn_eq_true] at signed
    rw [satisfied_or] at holds ⊢
    obtain ⟨f, hf, holds⟩ := holds
    exact ⟨f, hf, ih f hf (signed f hf) le same holds⟩
  | forAll parameters f ih =>
    rw [signedOver] at signed
    rw [Satisfied] at holds ⊢
    exact fun arguments admitted => ih signed le same (holds arguments admitted)
  | forSome parameters f ih =>
    rw [signedOver] at signed
    rw [Satisfied] at holds ⊢
    obtain ⟨arguments, admitted, holds⟩ := holds
    exact ⟨arguments, admitted, ih signed le same holds⟩
  | unsupported feature => cases holds

theorem satisfied_of_signed (signed : f.signed positive = true)
    (le : if positive then s ≤ t else t ≤ s) (holds : f.Satisfied ⟨objects, s⟩ g) :
    f.Satisfied ⟨objects, t⟩ g := by
  have counted : f.signedOver (fun _ => true) positive = true := signedOver_of_signed signed
  exact satisfied_of_signedOver counted le (fun _ other => nomatch other) holds

end Formula

namespace Rule
variable {objects : ObjectTable} {r : Rule} {rules : List Rule} {s s' t : State} {changed : Bool}

/-- For all candidate arguments for which the body is true, the ground head is there. -/
def Respected (objects : ObjectTable) (r : Rule) (t : State) : Prop :=
  ∀ arguments ∈ (Candidates.of objects r.parameters).tuples,
    (r.body.eval ⟨objects, t⟩).outcome (.ofArguments r.parameters arguments) = .ok true →
      ∃ p ∈ t, r.head.ground.outcome (.ofArguments r.parameters arguments) = .ok p

theorem Ready.respected_iff (ready : r.Ready) (coherent : objects.Coherent) :
    r.Respected objects t ↔ ∀ arguments p, objects.Admits r.parameters arguments →
      r.body.Satisfied ⟨objects, t⟩ (.ofArguments r.parameters arguments) →
      r.head.Denotes (.ofArguments r.parameters arguments) p → p ∈ t := by
  constructor
  · intro respected arguments p admitted satisfied denoted
    have bound : ∀ x ∈ r.body.free, (Assignment.ofArguments r.parameters arguments).get? x ≠ none :=
      fun x hx => Assignment.get?_ofArguments_ne_none admitted.length_eq
        (ready.bound (List.mem_append_left _ hx))
    obtain ⟨b, answer, truth⟩ := Formula.exists_eval_eq (w := ⟨objects, t⟩) coherent bound
      ready.decidable
    obtain rfl := truth.mpr satisfied
    obtain ⟨q, hq, grounded⟩ :=
      respected arguments (coherent.mem_tuples_iff.mpr admitted) answer
    rw [Atom.outcome_ground_eq_ok.mpr denoted] at grounded
    obtain rfl := Except.ok.inj grounded
    exact hq
  · intro respected arguments candidate answer
    have admitted := coherent.mem_tuples_iff.mp candidate
    have satisfied := (r.body.answers_eval (w := ⟨objects, t⟩) coherent _ _ answer).mp rfl
    obtain ⟨p, grounded⟩ := r.head.exists_ground (g := .ofArguments r.parameters arguments)
      fun x hx => Assignment.get?_ofArguments_ne_none admitted.length_eq
        (ready.bound (List.mem_append_right _ hx))
    have denoted := Atom.outcome_ground_eq_ok.mp grounded
    exact ⟨p, respected arguments p admitted satisfied denoted, grounded⟩

theorem Ready.respected_of_quiet (ready : r.Ready) (coherent : objects.Coherent)
    (quiet : (r.fire objects).run s = .ok false s) : r.Respected objects s := by
  rw [ready.respected_iff coherent]
  intro arguments p admitted satisfied denoted
  exact mem_of_quiet_fire coherent quiet admitted satisfied denoted

/-- A body that is true here is true in any larger state, and where that state respects the rule it
has the head already. -/
theorem Ready.preserves_le_fire (ready : r.Ready) (coherent : objects.Coherent)
    (positive : r.body.signed true = true) (respected : r.Respected objects t) :
    Update.Preserves (· ≤ t) (r.fire objects) := by
  intro s s' below fired p hp
  obtain hp | ⟨arguments, admitted, satisfied, denoted⟩ := (mem_fire coherent fired).mp hp
  · exact below p hp
  · have later := Formula.satisfied_of_signed positive below satisfied
    exact (ready.respected_iff coherent).mp respected arguments p admitted later denoted

theorem isLeast_of_close (coherent : objects.Coherent) (ready : ∀ r ∈ rules, r.Ready)
    (positive : ∀ r ∈ rules, r.body.signed true = true)
    (done : (close objects rules).run s = .ok changed s') :
    IsLeast {t | s ≤ t ∧ ∀ r ∈ rules, r.Respected objects t} s' := by
  have closed := Update.result_eq_ok.mpr ⟨changed, done⟩
  refine ⟨⟨?_, fun r hr => ?_⟩, fun t ⟨above, respected⟩ => ?_⟩
  · have kept (r : Rule) (_ : r ∈ rules) : Update.Preserves (s ≤ ·) (r.fire objects) := by
      intro t t' above fired
      obtain ⟨new, ran⟩ := Update.result_eq_ok.mp fired
      exact above.trans (grows_fire coherent r t new t' ran).1
    exact preserves_close kept s s' le_rfl closed
  · have quiet := quiet_fire_of_quiet_sweep coherent (quiet_of_close coherent done) r hr
    exact (ready r hr).respected_of_quiet coherent quiet
  · have kept (r : Rule) (hr : r ∈ rules) : Update.Preserves (· ≤ t) (r.fire objects) :=
      (ready r hr).preserves_le_fire coherent (positive r hr) (respected r hr)
    exact preserves_close kept s s' above closed

/-- Closing under positive rules never fails, and it computes the least state that contains the
given one and respects every rule. So the result depends neither on the order of the rules nor on
repetitions among them, and it grows with the state. -/
theorem close_isLeast (types : TypeHierarchy) (declared : List Object) {rules : List Rule}
    (ready : ∀ r ∈ rules, r.Ready) (positive : ∀ r ∈ rules, r.body.signed true = true) :
    ∃ closure : State → State,
      (∀ rules', (∀ r, r ∈ rules' ↔ r ∈ rules) → ∀ s, ∃ changed,
        (close (.ofList types declared) rules').run s = .ok changed (closure s)) ∧
      (∀ s, IsLeast {t | s ≤ t ∧ ∀ r ∈ rules, r.Respected (.ofList types declared) t}
        (closure s)) ∧
      Monotone closure := by
  have coherent := ObjectTable.coherent_ofList types declared
  have closes (s : State) : ∃ s' changed,
      (close (.ofList types declared) rules).run s = .ok changed s' := by
    obtain ⟨changed, s', done, -⟩ := exists_close coherent ready s
    exact ⟨s', changed, done⟩
  choose closure changed done using closes
  have least (s : State) := isLeast_of_close coherent ready positive (done s)
  refine ⟨closure, fun rules' same s => ?_, least, fun s t below => ?_⟩
  · have ready' : ∀ r ∈ rules', r.Ready := fun r hr => ready r ((same r).mp hr)
    have positive' : ∀ r ∈ rules', r.body.signed true = true :=
      fun r hr => positive r ((same r).mp hr)
    obtain ⟨changed', s', done', -⟩ := exists_close coherent ready' s
    have least' := isLeast_of_close coherent ready' positive' done'
    simp only [same] at least'
    obtain rfl : s' = closure s := least'.unique (least s)
    exact ⟨changed', done'⟩
  · obtain ⟨above, respected⟩ := (least t).1
    exact (least s).2 ⟨below.trans above, respected⟩

/-- What can be reached over edges: along one edge, or along one more edge than before unless that
leads back to the beginning. -/
def reachability : List Rule :=
  [⟨[⟨"?x", "object"⟩, ⟨"?y", "object"⟩],
      .atom ⟨"edge", [.variableNamed "?x", .variableNamed "?y"]⟩,
      ⟨"path", [.variableNamed "?x", .variableNamed "?y"]⟩⟩,
    ⟨[⟨"?x", "object"⟩, ⟨"?y", "object"⟩, ⟨"?z", "object"⟩],
      .and [.not (.equal (.variableNamed "?x") (.variableNamed "?z")),
        .atom ⟨"path", [.variableNamed "?x", .variableNamed "?y"]⟩,
        .not (.not (.atom ⟨"edge", [.variableNamed "?y", .variableNamed "?z"]⟩))],
      ⟨"path", [.variableNamed "?x", .variableNamed "?z"]⟩⟩]

/-- The recursive rule may be swept first. -/
theorem close_isLeast_reachability : ∃ closure : State → State,
    (∀ s, ∃ changed, (close (.ofList .initial [⟨"a", "object"⟩, ⟨"b", "object"⟩])
      reachability.reverse).run s = .ok changed (closure s)) ∧
    (∀ s, IsLeast {t | s ≤ t ∧ ∀ r ∈ reachability,
      r.Respected (.ofList .initial [⟨"a", "object"⟩, ⟨"b", "object"⟩]) t} (closure s)) ∧
    Monotone closure := by
  have ready : ∀ r ∈ reachability, r.Ready := by
    intro r hr
    simp only [reachability, List.mem_cons, List.not_mem_nil, or_false] at hr
    obtain rfl | rfl := hr
    · exact ⟨by decide, by decide⟩
    · exact ⟨by decide, by decide⟩
  have positive : ∀ r ∈ reachability, r.body.signed true = true := by decide
  obtain ⟨closure, runs, least, monotone⟩ :=
    close_isLeast .initial [⟨"a", "object"⟩, ⟨"b", "object"⟩] ready positive
  exact ⟨closure, runs _ fun r => List.mem_reverse, least, monotone⟩

end Rule
end TypedPlanning
