import TypedPlanning.Proofs.Construction
import TypedPlanning.Proofs.Simultaneity

/-! Where the facts of a state come from. A fact is there from the start, is put there by an action,
or is an instance of the head of a rule. In each case its predicate is declared and its arguments
are objects of the problem. -/

namespace TypedPlanning
open Fallible

namespace Assignment
variable {g : Assignment} {t : ObjectTable}

/-- Only objects of the table are bound. -/
def Within (t : ObjectTable) (g : Assignment) : Prop :=
  ∀ x o, g.get? x = some o → o ∈ t.objects

theorem within_empty (t : ObjectTable) : empty.Within t := by
  intro x o bound
  cases bound

theorem Within.bindAll (within : g.Within t) {arguments : List Object}
    (known : ∀ o ∈ arguments, o ∈ t.objects) (parameters : List Parameter) :
    (g.bindAll parameters arguments).Within t := by
  have pairs_known : ∀ pair ∈ parameters.zip arguments, pair.2 ∈ t.objects :=
    fun pair hpair => known pair.2 (List.of_mem_zip hpair).2
  unfold Assignment.bindAll
  generalize parameters.zip arguments = pairs at pairs_known
  induction pairs generalizing g with
  | nil => exact within
  | cons pair pairs ih =>
    obtain ⟨first, rest⟩ := List.forall_mem_cons.mp pairs_known
    refine ih (fun x o bound => ?_) rest
    rw [get?_bind] at bound
    split at bound
    · obtain rfl := Option.some.inj bound
      exact first
    · exact within x o bound

theorem Within.of_admits (within : g.Within t) {parameters : List Parameter}
    {arguments : List Object} (admitted : t.Admits parameters arguments) :
    (g.bindAll parameters arguments).Within t := by
  refine within.bindAll (fun o ho => ?_) parameters
  obtain ⟨p, -, known, -⟩ := exists_of_mem_left admitted ho
  exact known

end Assignment

namespace Effect

mutual

def additions : Effect → List Atom
  | .add a => [a]
  | .delete _ => []
  | .when _ effects => additionsIn effects
  | .forAll _ effects => additionsIn effects
  | .unsupported _ => []

def additionsIn : List Effect → List Atom
  | [] => []
  | e :: es => e.additions ++ additionsIn es

end

@[simp] theorem mem_additionsIn {a : Atom} {es : List Effect} :
    a ∈ additionsIn es ↔ ∃ e ∈ es, a ∈ e.additions := by
  induction es with
  | nil => simp [additionsIn]
  | cons e es ih => simp [additionsIn, ih]

variable {w : World} {p : Fact}

theorem mem_additions {a : Atom} (e : Effect) : a ∈ e.additions ↔ .add a ∈ e.leaves := by
  induction e using Effect.induction with
  | add b => simp [additions, leaves]
  | delete b => simp [additions, leaves]
  | when guard effects ih =>
    rw [additions, leaves, mem_additionsIn, mem_leavesIn]
    exact exists_congr fun e => and_congr_right fun he => ih e he
  | forAll parameters effects ih =>
    rw [additions, leaves, mem_additionsIn, mem_leavesIn]
    exact exists_congr fun e => and_congr_right fun he => ih e he
  | unsupported feature => simp [additions, leaves]

theorem Leads.within {e : Effect} {leaf : Leaf} {g g' : Assignment} (way : Leads w e g leaf g')
    (within : g.Within w.objects) : g'.Within w.objects := by
  induction way with
  | add a g => exact within
  | delete a g => exact within
  | when _ _ _ ih => exact ih within
  | forAll admitted _ _ ih => exact ih (within.of_admits admitted)

/-- An added fact is an instance of one of the additions. -/
theorem exists_addition_of_changeIn {es : List Effect} {g : Assignment}
    (within : g.Within w.objects) (added : p ∈ (changeIn w es g).1) :
    ∃ a ∈ additionsIn es, ∃ g' : Assignment, g'.Within w.objects ∧ a.Denotes g' p := by
  simp only [changeIn_eq_iSup, mem_fst_iSup] at added
  obtain ⟨e, he, added⟩ := added
  obtain ⟨a, g', way, denoted⟩ := e.mem_change_iff.1.mp added
  have listed : a ∈ e.additions := e.mem_additions.mpr way.mem_leaves
  exact ⟨a, mem_additionsIn.mpr ⟨e, he, listed⟩, g', way.within within, denoted⟩

end Effect

namespace Vocabulary
variable {v : Vocabulary} {scope : List String}

def Declares (v : Vocabulary) (predicate : String) (n : Nat) : Prop :=
  ∃ signature, v.predicates.get? predicate = some signature ∧ signature.arity = n

structure Covers (v : Vocabulary) (a : Atom) : Prop where
  predicate : (v.predicates.get? a.predicate).isSome = true
  objects : ∀ o, Term.object o ∈ a.terms → o ∈ v.objects.objects

structure Knows (v : Vocabulary) (p : Fact) : Prop where
  predicate : (v.predicates.get? p.predicate).isSome = true
  arguments : ∀ o ∈ p.arguments, o ∈ v.objects.objects

/-- The fact has as many arguments as its predicate declares. -/
def Fits (v : Vocabulary) (p : Fact) : Prop := v.Declares p.predicate p.arity

/-- The fact is known, and it has the declared number of arguments unless it is an instance of the
head of a derived predicate. -/
structure Accounts (v : Vocabulary) (derived : List Rule) (p : Fact) : Prop where
  knows : v.Knows p
  fits_or : v.Fits p ∨ ∃ r ∈ derived, r.IsInstance v.objects p

theorem Declares.isSome {predicate : String} {n : Nat} (declares : v.Declares predicate n) :
    (v.predicates.get? predicate).isSome = true := by
  obtain ⟨signature, found, -⟩ := declares
  rw [found]
  rfl

theorem Covers.knows {a : Atom} (covers : v.Covers a) {g : Assignment}
    (within : g.Within v.objects) {p : Fact} (denoted : a.Denotes g p) : v.Knows p := by
  refine ⟨denoted.1 ▸ covers.predicate, fun o ho => ?_⟩
  obtain ⟨t, ht, value⟩ := exists_of_mem_right denoted.2 ho
  cases t with
  | object o' =>
    obtain rfl := Option.some.inj value
    exact covers.objects _ ht
  | variableNamed x => exact within x o value

theorem fits_iff_of_denotes {a : Atom} {g : Assignment} {p : Fact} (denoted : a.Denotes g p) :
    v.Fits p ↔ v.Declares a.predicate a.terms.length := by
  rw [Fits, denoted.1, Fact.arity, ← denoted.2.length_eq]

theorem covers_of_atom (coherent : v.objects.Coherent) {a : Definition.Atom} {b : Atom}
    (translated : v.atom scope a = .ok b) :
    v.Covers b ∧ v.Declares b.predicate b.terms.length := by
  obtain ⟨⟨signature, found, arity⟩, same, terms⟩ := atom_eq_ok.mp translated
  have declares : v.Declares b.predicate b.terms.length :=
    ⟨signature, same ▸ found, arity.trans terms.length_eq⟩
  refine ⟨⟨declares.isSome, fun o ho => ?_⟩, declares⟩
  obtain ⟨t, -, translated⟩ := exists_of_mem_right terms ho
  cases t with
  | name n =>
    obtain ⟨o', found, same⟩ := term_name_eq_ok.mp translated
    obtain rfl := Term.object.inj same
    exact coherent.mem_of_get? found
  | variableNamed x =>
    obtain ⟨-, same⟩ := term_variableNamed_eq_ok.mp translated
    cases same

theorem covers_of_effects (coherent : v.objects.Coherent) {e : Definition.Effect}
    {fs : List Effect} (translated : v.effects scope e = .ok fs) :
    ∀ a ∈ Effect.additionsIn fs, v.Covers a ∧ v.Declares a.predicate a.terms.length := by
  induction e using Definition.Effect.induction generalizing scope fs with
  | add a =>
    obtain ⟨b, hb, rfl⟩ := effects_eq_ok.mp translated
    simpa [Effect.additionsIn, Effect.additions] using covers_of_atom coherent hb
  | delete a =>
    obtain ⟨b, -, rfl⟩ := effects_eq_ok.mp translated
    simp [Effect.additions]
  | and es ih =>
    obtain ⟨parts, hparts, rfl⟩ := effects_eq_ok.mp translated
    intro a ha
    obtain ⟨f, hf, added⟩ := Effect.mem_additionsIn.mp ha
    obtain ⟨part, hpart, inPart⟩ := List.mem_flatten.mp hf
    obtain ⟨e, he, translated⟩ := exists_of_mem_right hparts hpart
    exact ih e he translated a (Effect.mem_additionsIn.mpr ⟨f, inPart, added⟩)
  | when guard e ih =>
    obtain ⟨f, -, part, hpart, rfl⟩ := effects_eq_ok.mp translated
    simpa [Effect.additions] using ih hpart
  | forAll vs e ih =>
    obtain ⟨-, part, hpart, rfl⟩ := effects_eq_ok.mp translated
    simpa [Effect.additions] using ih hpart
  | unsupported feature =>
    obtain rfl := effects_eq_ok.mp translated
    simp [Effect.additions]

theorem fits_of_proposition (coherent : v.objects.Coherent) {a : Definition.Atom} {p : Fact}
    (translated : v.proposition a = .ok p) : v.Knows p ∧ v.Fits p := by
  rw [proposition, expectArity_bind_eq_ok] at translated
  obtain ⟨⟨signature, found, arity⟩, translated⟩ := translated
  obtain ⟨arguments, terms, rfl⟩ := bind_pure_eq_ok.mp translated
  rw [mapM_eq_ok] at terms
  have fits : v.Fits ⟨a.predicate, arguments⟩ := ⟨signature, found, arity.trans terms.length_eq⟩
  refine ⟨⟨fits.isSome, fun o ho => ?_⟩, fits⟩
  obtain ⟨t, -, translated⟩ := exists_of_mem_right terms ho
  cases t with
  | name n => exact coherent.mem_of_get? (object_eq_ok.mp translated)
  | variableNamed x => cases translated

end Vocabulary

theorem Action.accepts_of_apply {objects : ObjectTable} {a : Action} {arguments : List Object}
    {s t : State} (applied : a.apply objects s arguments = .ok t) :
    List.Forall₂ (fun o (p : Parameter) => objects.satisfies o p.type = true) arguments
      a.parameters := by
  rw [apply, bind_pure_eq_ok] at applied
  obtain ⟨d, changed, -⟩ := applied
  obtain ⟨g, assigned, -⟩ := bind_eq_ok.mp changed
  exact (assign_eq_ok_iff.mp assigned).1

theorem Action.mem_apply {objects : ObjectTable} (coherent : objects.Coherent) {a : Action}
    {arguments : List Object} {s t : State} (applied : a.apply objects s arguments = .ok t)
    {p : Fact} (hp : p ∈ t) : p ∈ s ∨
      p ∈ (Effect.changeIn ⟨objects, s⟩ a.effects (.ofArguments a.parameters arguments)).1 := by
  rw [apply, bind_pure_eq_ok] at applied
  obtain ⟨d, changed, rfl⟩ := applied
  rw [delta] at changed
  obtain ⟨g, assigned, gathered⟩ := bind_eq_ok.mp changed
  obtain ⟨-, bound⟩ := assign_eq_ok assigned
  have sets := Delta.sets_ofEffects coherent gathered
  rw [← bound, ← sets]
  obtain added | ⟨kept, -⟩ := Delta.mem_apply.mp hp
  · exact .inr added
  · exact .inl kept

namespace Problem
variable {v : Vocabulary} {p : Problem} {domain : Definition.Domain}
  {problem : Definition.Problem} {s s' : State}

def vocabulary (p : Problem) : Vocabulary := ⟨p.objects, p.predicates⟩

/-- The initial state, and every state that a call leads to, whether or not it is applicable. -/
inductive Reachable (p : Problem) : State → Prop where
  | initial : p.Reachable p.initial
  | next {s s' : State} {call : String} :
    p.Reachable s → p.next s call = .ok s' → p.Reachable s'

theorem interpret_eq_ok (coherent : p.objects.Coherent) {c : Text.Call} {a : Action}
    {arguments : List Object} (read : p.interpret c = .ok (a, arguments)) :
    (∃ name, p.actions.get? name = some a) ∧ ∀ o ∈ arguments, o ∈ p.objects.objects := by
  rw [interpret] at read
  split at read
  · cases read
  · next a' found =>
    obtain ⟨arguments', named, same⟩ := bind_pure_eq_ok.mp read
    obtain ⟨rfl, rfl⟩ := Prod.mk.inj same
    refine ⟨⟨c.name, found⟩, fun o ho => ?_⟩
    rw [Problem.arguments] at named
    split at named
    · obtain ⟨n, -, known⟩ := exists_of_mem_right (mapM_eq_ok.mp named) ho
      rw [object] at known
      split at known
      · next o' found =>
        obtain rfl := Except.ok.inj known
        exact coherent.mem_of_get? found
      · cases known
    · cases named

theorem readCall_eq_ok (coherent : p.objects.Coherent) {call : String} {a : Action}
    {arguments : List Object} (read : p.readCall call = .ok (a, arguments)) :
    (∃ name, p.actions.get? name = some a) ∧ ∀ o ∈ arguments, o ∈ p.objects.objects := by
  obtain ⟨c, -, read⟩ := bind_eq_ok.mp read
  exact interpret_eq_ok coherent read

namespace MadeFrom
variable (made : MadeFrom domain problem v p)
include made

theorem vocabulary_eq : v = p.vocabulary := by
  rw [Problem.vocabulary, made.objects, made.predicates]

theorem sound : ∃ types, v.Sound
    (.ofList types ((domain.constants ++ problem.objects).map Object.of)) := by
  obtain ⟨types, -, -, sound, -⟩ := Vocabulary.sound_ofDefinitions made.vocabulary
  exact ⟨types, sound⟩

theorem coherent : v.objects.Coherent := by
  obtain ⟨types, sound⟩ := made.sound
  exact sound.objects_eq ▸ ObjectTable.coherent_ofList _ _

theorem coherent_objects : p.objects.Coherent := made.objects ▸ made.coherent

theorem covers_additions {name : String} {a : Action} (found : p.actions.get? name = some a) :
    ∀ b ∈ Effect.additionsIn a.effects, v.Covers b ∧ v.Declares b.predicate b.terms.length := by
  obtain ⟨d, -, translated⟩ := made.action_of_get? found
  obtain ⟨-, f, -, effects, heffects, rfl⟩ := Vocabulary.action_eq_ok.mp translated
  exact Vocabulary.covers_of_effects made.coherent heffects

theorem covers_axiom {r : Rule} (hr : r ∈ p.axioms) :
    v.Covers r.head ∧ v.Declares r.head.predicate r.head.terms.length := by
  obtain ⟨d, -, translated⟩ := exists_of_mem_right (mapM_eq_ok.mp made.axioms) hr
  obtain ⟨-, body, -, head, hhead, rfl⟩ := Vocabulary.rule_eq_ok.mp translated
  obtain ⟨a, -, atom⟩ := Vocabulary.ruleHead_eq_ok.mp hhead
  exact Vocabulary.covers_of_atom made.coherent atom

/-- The head of a derivation is covered, whatever the number of its arguments. -/
theorem covers_derived {r : Rule} (hr : r ∈ p.derived) : v.Covers r.head := by
  obtain ⟨types, -, -, -, declared⟩ := Vocabulary.sound_ofDefinitions made.vocabulary
  obtain ⟨d, hd, translated⟩ := exists_of_mem_right (mapM_eq_ok.mp made.derived) hr
  obtain ⟨-, body, -, rfl⟩ := Vocabulary.derivedRule_eq_ok.mp translated
  exact ⟨declared d hd, by simp⟩

/-- An instance of the head of a rule is accounted for, if only as that of a derived predicate. -/
theorem accounted_of_isInstance {r : Rule} (hr : r ∈ p.rules) {f : Fact}
    (derived : r.IsInstance v.objects f) : v.Accounts p.derived f := by
  have from_rule := derived
  obtain ⟨arguments, admitted, denoted⟩ := derived
  have within := (Assignment.within_empty v.objects).of_admits admitted
  obtain hr | hr := List.mem_append.mp hr
  · have covers := made.covers_derived hr
    exact ⟨covers.knows within denoted, .inr ⟨r, hr, from_rule⟩⟩
  · obtain ⟨covers, declares⟩ := made.covers_axiom hr
    have fits := (Vocabulary.fits_iff_of_denotes denoted).mpr declares
    exact ⟨covers.knows within denoted, .inl fits⟩

theorem accounted_of_close (closed : (Rule.close v.objects p.rules).result s = .ok s')
    (before : ∀ f ∈ s, v.Accounts p.derived f) : ∀ f ∈ s', v.Accounts p.derived f := by
  intro f hf
  obtain old | ⟨r, hr, derived⟩ := Rule.mem_close made.coherent closed hf
  · exact before f old
  · exact made.accounted_of_isInstance hr derived

theorem accounted_of_apply {name : String} {a : Action} (found : p.actions.get? name = some a)
    {arguments : List Object} (known : ∀ o ∈ arguments, o ∈ v.objects.objects)
    (applied : a.apply v.objects s arguments = .ok s')
    (before : ∀ f ∈ s, v.Accounts p.derived f) : ∀ f ∈ s', v.Accounts p.derived f := by
  intro f hf
  obtain old | added := a.mem_apply made.coherent applied hf
  · exact before f old
  · have within := (Assignment.within_empty v.objects).bindAll known a.parameters
    obtain ⟨b, hb, g, within, denoted⟩ := Effect.exists_addition_of_changeIn within added
    obtain ⟨covers, declares⟩ := made.covers_additions found b hb
    have fits := (Vocabulary.fits_iff_of_denotes denoted).mpr declares
    exact ⟨covers.knows within denoted, .inl fits⟩

theorem accounted_of_reachable (reach : p.Reachable s) : ∀ f ∈ s, v.Accounts p.derived f := by
  induction reach with
  | initial =>
    obtain ⟨facts, translated, closed⟩ := made.initial
    refine made.accounted_of_close closed fun f hf => ?_
    obtain ⟨a, -, translated⟩ :=
      exists_of_mem_right (mapM_eq_ok.mp translated) (State.mem_ofList.mp hf)
    obtain ⟨knows, fits⟩ := Vocabulary.fits_of_proposition made.coherent translated
    exact ⟨knows, .inl fits⟩
  | @next s s' call _ taken ih =>
    rw [Problem.next] at taken
    obtain ⟨⟨a, arguments⟩, read, taken⟩ := bind_eq_ok.mp taken
    obtain ⟨t, applied, closed⟩ := bind_eq_ok.mp taken
    obtain ⟨⟨name, found⟩, known⟩ := readCall_eq_ok made.coherent_objects read
    rw [closed_eq_result, Problem.close, made.objects] at closed
    rw [made.objects] at applied known
    exact made.accounted_of_close closed (made.accounted_of_apply found known applied ih)

end MadeFrom
end Problem
end TypedPlanning
