import TypedPlanning.Proofs.Change

/-! Effects happen at once. Each way down to a leaf, past guards that hold in the state as it was,
adds or deletes what the leaf stands for there, whatever the other ways do. So a list of effects can
be rearranged: its order does not matter, nor how often an effect is in it, nor whether effects
share the guard or the quantifier in front of them. -/

namespace TypedPlanning
open Fallible Evaluation

namespace Effect

/-- Where a way down through effects ends. -/
inductive Leaf where
  | add (a : Atom)
  | delete (a : Atom)
deriving DecidableEq

/-- A way down from an effect to a leaf: past guards that hold, and with a tuple chosen at each
quantifier. The bindings at its end are those with all these tuples. -/
inductive Leads (w : World) : Effect → Assignment → Leaf → Assignment → Prop where
  | add (a : Atom) (g : Assignment) : Leads w (.add a) g (.add a) g
  | delete (a : Atom) (g : Assignment) : Leads w (.delete a) g (.delete a) g
  | when {guard : Formula} {effects : List Effect} {e : Effect} {leaf : Leaf} {g g' : Assignment} :
    guard.Satisfied w g → e ∈ effects → Leads w e g leaf g' →
    Leads w (.when guard effects) g leaf g'
  | forAll {parameters : List Parameter} {arguments : List Object} {effects : List Effect}
    {e : Effect} {leaf : Leaf} {g g' : Assignment} :
    w.objects.Admits parameters arguments → e ∈ effects →
    Leads w e (g.bindAll parameters arguments) leaf g' →
    Leads w (.forAll parameters effects) g leaf g'

/-- What the leaves of one kind stand for, over all ways down. -/
def reached (w : World) (kind : Atom → Leaf) (e : Effect) (g : Assignment) : Set Fact :=
  {p | ∃ a g', Leads w e g (kind a) g' ∧ a.Denotes g' p}

section Reached
variable {w : World} {kind : Atom → Leaf} {g : Assignment} {p : Fact}

theorem mem_reached_add {a : Atom} :
    p ∈ reached w kind (.add a) g ↔ ∃ b, kind b = .add a ∧ b.Denotes g p := by
  constructor
  · rintro ⟨b, g', way, denoted⟩
    generalize same : kind b = leaf at way
    cases way
    exact ⟨b, same, denoted⟩
  · rintro ⟨b, same, denoted⟩
    exact ⟨b, g, same ▸ .add a g, denoted⟩

theorem mem_reached_delete {a : Atom} :
    p ∈ reached w kind (.delete a) g ↔ ∃ b, kind b = .delete a ∧ b.Denotes g p := by
  constructor
  · rintro ⟨b, g', way, denoted⟩
    generalize same : kind b = leaf at way
    cases way
    exact ⟨b, same, denoted⟩
  · rintro ⟨b, same, denoted⟩
    exact ⟨b, g, same ▸ .delete a g, denoted⟩

theorem mem_reached_when {guard : Formula} {effects : List Effect} :
    p ∈ reached w kind (.when guard effects) g ↔
      guard.Satisfied w g ∧ ∃ e ∈ effects, p ∈ reached w kind e g := by
  constructor
  · rintro ⟨a, g', way, denoted⟩
    cases way with
    | when holds he way => exact ⟨holds, _, he, a, g', way, denoted⟩
  · rintro ⟨holds, e, he, a, g', way, denoted⟩
    exact ⟨a, g', .when holds he way, denoted⟩

theorem mem_reached_forAll {parameters : List Parameter} {effects : List Effect} :
    p ∈ reached w kind (.forAll parameters effects) g ↔
      ∃ arguments, w.objects.Admits parameters arguments ∧
        ∃ e ∈ effects, p ∈ reached w kind e (g.bindAll parameters arguments) := by
  constructor
  · rintro ⟨a, g', way, denoted⟩
    cases way with
    | forAll admitted he way => exact ⟨_, admitted, _, he, a, g', way, denoted⟩
  · rintro ⟨arguments, admitted, e, he, a, g', way, denoted⟩
    exact ⟨a, g', .forAll admitted he way, denoted⟩

theorem notMem_reached_unsupported {feature : Feature} :
    p ∉ reached w kind (.unsupported feature) g := by
  rintro ⟨a, g', way, -⟩
  cases way

/-- What an effect adds and deletes is what the ways down from it reach. -/
theorem mem_change_iff (e : Effect) :
    (p ∈ (e.change w g).1 ↔ p ∈ e.reached w .add g) ∧
    (p ∈ (e.change w g).2 ↔ p ∈ e.reached w .delete g) := by
  induction e using Effect.induction generalizing g with
  | add a => simp [change, mem_reached_add]
  | delete a => simp [change, mem_reached_delete]
  | when guard effects ih =>
    simp only [change, changeIn_eq_iSup, mem_fst_iSup, mem_snd_iSup, mem_reached_when, exists_prop]
    constructor
    · exact and_congr_right fun _ => exists_congr fun e => and_congr_right fun he => (ih e he).1
    · exact and_congr_right fun _ => exists_congr fun e => and_congr_right fun he => (ih e he).2
  | forAll parameters effects ih =>
    simp only [change, changeIn_eq_iSup, mem_fst_iSup, mem_snd_iSup, mem_reached_forAll,
      exists_prop]
    constructor
    · exact exists_congr fun arguments => and_congr_right fun _ => exists_congr fun e =>
        and_congr_right fun he => (ih e he).1
    · exact exists_congr fun arguments => and_congr_right fun _ => exists_congr fun e =>
        and_congr_right fun he => (ih e he).2
  | unsupported feature => simp [change, notMem_reached_unsupported]

end Reached

mutual

def leaves : Effect → List Leaf
  | .add a => [.add a]
  | .delete a => [.delete a]
  | .when _ effects => leavesIn effects
  | .forAll _ effects => leavesIn effects
  | .unsupported _ => []

def leavesIn : List Effect → List Leaf
  | [] => []
  | e :: es => e.leaves ++ leavesIn es

end

@[simp] theorem mem_leavesIn {leaf : Leaf} {es : List Effect} :
    leaf ∈ leavesIn es ↔ ∃ e ∈ es, leaf ∈ e.leaves := by
  induction es with
  | nil => simp [leavesIn]
  | cons e es ih => simp [leavesIn, ih]

theorem Leads.mem_leaves {w : World} {e : Effect} {leaf : Leaf} {g g' : Assignment}
    (way : Leads w e g leaf g') : leaf ∈ e.leaves := by
  induction way with
  | add a g => exact List.mem_singleton_self _
  | delete a g => exact List.mem_singleton_self _
  | when _ he _ ih => exact mem_leavesIn.mpr ⟨_, he, ih⟩
  | forAll _ he _ ih => exact mem_leavesIn.mpr ⟨_, he, ih⟩

/-- The same effects in another arrangement: in another order, with some of them repeated, or with
those behind one guard or quantifier distributed over several that are the same. All this may happen
below guards and quantifiers too. -/
inductive Rearranged : List Effect → List Effect → Prop where
  | perm {es es' : List Effect} : es.Perm es' → Rearranged es es'
  | duplicate {e : Effect} {es : List Effect} : e ∈ es → Rearranged es (e :: es)
  | splitWhen (guard : Formula) (parts : List (List Effect)) :
    Rearranged [.when guard parts.flatten] (parts.map (.when guard))
  | splitForAll (parameters : List Parameter) (parts : List (List Effect)) :
    Rearranged [.forAll parameters parts.flatten] (parts.map (.forAll parameters))
  | insideWhen {guard : Formula} {effects effects' : List Effect} :
    Rearranged effects effects' → Rearranged [.when guard effects] [.when guard effects']
  | insideForAll {parameters : List Parameter} {effects effects' : List Effect} :
    Rearranged effects effects' →
    Rearranged [.forAll parameters effects] [.forAll parameters effects']
  | append {es es' fs fs' : List Effect} :
    Rearranged es es' → Rearranged fs fs' → Rearranged (es ++ fs) (es' ++ fs')
  | trans {es es' es'' : List Effect} :
    Rearranged es es' → Rearranged es' es'' → Rearranged es es''

namespace Rearranged
variable {es es' : List Effect}

theorem changeIn_eq (same : Rearranged es es') (w : World) (g : Assignment) :
    changeIn w es' g = changeIn w es g := by
  induction same generalizing g with
  | perm perm => simp only [Effect.changeIn_eq_iSup, perm.mem_iff]
  | @duplicate e es he =>
    rw [changeIn, Effect.changeIn_eq_iSup, sup_eq_right]
    exact le_biSup (fun e => change w e g) he
  | splitWhen guard parts =>
    rw [changeIn_map, changeIn_singleton, change, changeIn_flatten]
    simp only [change]
    -- the guard is moved inwards past the choice of a part and past its being in the list
    rw [iSup_comm (ι := guard.Satisfied w g)]
    exact iSup_congr fun part => iSup_comm
  | splitForAll parameters parts =>
    rw [changeIn_map, changeIn_singleton, change]
    simp only [change, changeIn_flatten]
    exact iSup₂_comm _
  | insideWhen _ ih => simp only [changeIn_singleton, change, ih]
  | insideForAll _ ih => simp only [changeIn_singleton, change, ih]
  | append _ _ ih ih' => rw [changeIn_append, changeIn_append, ih, ih']
  | trans _ _ ih ih' => rw [ih', ih]

theorem freeIn_subset (same : Rearranged es es') : freeIn es' ⊆ freeIn es := by
  intro x
  induction same with
  | perm perm => simp only [mem_freeIn, perm.mem_iff, imp_self]
  | @duplicate e es he =>
    rw [freeIn, List.mem_append]
    exact Or.rec (fun hx => mem_freeIn.mpr ⟨e, he, hx⟩) id
  | splitWhen guard parts =>
    intro hx
    obtain ⟨_, split, hx⟩ := mem_freeIn.mp hx
    obtain ⟨part, hpart, rfl⟩ := List.mem_map.mp split
    simp only [free, freeIn, freeIn_flatten, List.append_nil, List.mem_append] at hx ⊢
    exact hx.imp_right fun hx => List.mem_flatMap.mpr ⟨part, hpart, hx⟩
  | splitForAll parameters parts =>
    intro hx
    obtain ⟨_, split, hx⟩ := mem_freeIn.mp hx
    obtain ⟨part, hpart, rfl⟩ := List.mem_map.mp split
    simp only [free, freeIn, freeIn_flatten, List.append_nil, List.mem_filter] at hx ⊢
    exact hx.imp_left fun hx => List.mem_flatMap.mpr ⟨part, hpart, hx⟩
  | insideWhen _ ih =>
    simp only [freeIn, free, List.append_nil, List.mem_append]
    exact Or.imp_right ih
  | insideForAll _ ih =>
    simp only [freeIn, free, List.append_nil, List.mem_filter]
    exact And.imp_left ih
  | append _ _ ih ih' =>
    rw [freeIn_append, freeIn_append, List.mem_append, List.mem_append]
    exact Or.imp ih ih'
  | trans _ _ ih ih' => exact fun hx => ih (ih' hx)

theorem featuresIn_subset (same : Rearranged es es') : featuresIn es' ⊆ featuresIn es := by
  intro feature
  induction same with
  | perm perm => simp only [mem_featuresIn, perm.mem_iff, imp_self]
  | @duplicate e es he =>
    rw [featuresIn, List.mem_append]
    exact Or.rec (fun found => mem_featuresIn.mpr ⟨e, he, found⟩) id
  | splitWhen guard parts =>
    intro found
    obtain ⟨_, split, found⟩ := mem_featuresIn.mp found
    obtain ⟨part, hpart, rfl⟩ := List.mem_map.mp split
    simp only [features, featuresIn, featuresIn_flatten, List.append_nil, List.mem_append]
      at found ⊢
    exact found.imp_right fun found => List.mem_flatMap.mpr ⟨part, hpart, found⟩
  | splitForAll parameters parts =>
    intro found
    obtain ⟨_, split, found⟩ := mem_featuresIn.mp found
    obtain ⟨part, hpart, rfl⟩ := List.mem_map.mp split
    simp only [features, featuresIn, featuresIn_flatten, List.append_nil] at found ⊢
    exact List.mem_flatMap.mpr ⟨part, hpart, found⟩
  | insideWhen _ ih =>
    simp only [featuresIn, features, List.append_nil, List.mem_append]
    exact Or.imp_right ih
  | insideForAll _ ih => simpa only [featuresIn, features, List.append_nil] using ih
  | append _ _ ih ih' =>
    rw [featuresIn_append, featuresIn_append, List.mem_append, List.mem_append]
    exact Or.imp ih ih'
  | trans _ _ ih ih' => exact fun found => ih (ih' found)

end Rearranged
end Effect

namespace Delta

/-- Effects in which everything can be decided are gathered under all bindings that cover their free
variables, whatever the objects, their types and the state are. Added is what the leaves that add
stand for, over all ways down to them in this state, and deleted is what those that delete stand
for. No other arrangement of the effects makes a difference. -/
theorem ofEffects_simultaneous (types : TypeHierarchy) (declared : List Object) (s : State)
    {es : List Effect} {g : Assignment} (bound : ∀ x ∈ Effect.freeIn es, g.get? x ≠ none)
    (decidable : Effect.featuresIn es = []) :
    ∃ d, (ofEffects ⟨.ofList types declared, s⟩ es).outcome g = .ok d ∧
      (∀ p, p ∈ d.add ↔ ∃ e ∈ es, p ∈ e.reached ⟨.ofList types declared, s⟩ .add g) ∧
      (∀ p, p ∈ d.delete ↔ ∃ e ∈ es, p ∈ e.reached ⟨.ofList types declared, s⟩ .delete g) ∧
      ∀ es', Effect.Rearranged es es' →
        (ofEffects ⟨.ofList types declared, s⟩ es').outcome g = .ok d := by
  have coherent := ObjectTable.coherent_ofList types declared
  generalize ObjectTable.ofList types declared = objects at coherent ⊢
  obtain ⟨d, gathered, sets⟩ := exists_ofEffects_eq (w := ⟨objects, s⟩) coherent bound decidable
  refine ⟨d, gathered, fun p => ?_, fun p => ?_, fun es' same => ?_⟩
  · have added : p ∈ d.add ↔ p ∈ d.sets.1 := Iff.rfl
    simp only [added, sets, Effect.changeIn_eq_iSup, mem_fst_iSup, exists_prop,
      Effect.mem_change_iff]
  · have deleted : p ∈ d.delete ↔ p ∈ d.sets.2 := Iff.rfl
    simp only [deleted, sets, Effect.changeIn_eq_iSup, mem_snd_iSup, exists_prop,
      Effect.mem_change_iff]
  · have bound' : ∀ x ∈ Effect.freeIn es', g.get? x ≠ none :=
      fun x hx => bound x (same.freeIn_subset hx)
    have decidable' : Effect.featuresIn es' = [] :=
      List.subset_nil.mp (decidable ▸ same.featuresIn_subset)
    obtain ⟨d', gathered', sets'⟩ :=
      exists_ofEffects_eq (w := ⟨objects, s⟩) coherent bound' decidable'
    rw [gathered', Except.ok.injEq]
    exact sets_injective (by rw [sets', sets, same.changeIn_eq])

def toggling : List Effect :=
  [.forAll [⟨"?l", "lamp"⟩]
    [.when (.atom ⟨"lit", [.variableNamed "?l"]⟩) [.delete ⟨"lit", [.variableNamed "?l"]⟩],
     .when (.not (.atom ⟨"lit", [.variableNamed "?l"]⟩)) [.add ⟨"lit", [.variableNamed "?l"]⟩]]]

def twoLamps : World where
  objects := .ofList .initial [⟨"a", "lamp"⟩, ⟨"b", "lamp"⟩]
  state := .ofList [Fact.mk "lit" [⟨"a", "lamp"⟩]]

/-- Each lamp is toggled once: a lamp that is put out is not seen as one of the others. With a
quantifier for each of the two effects, and the second before the first, it is the same. -/
theorem ofEffects_simultaneous_toggling :
    (∀ x ∈ Effect.freeIn toggling, Assignment.empty.get? x ≠ none) ∧
    Effect.featuresIn toggling = [] ∧
    ∃ d, (ofEffects twoLamps toggling).outcome .empty = .ok d ∧
      d.add.toList = [⟨"lit", [⟨"b", "lamp"⟩]⟩] ∧ d.delete.toList = [⟨"lit", [⟨"a", "lamp"⟩]⟩] ∧
      (ofEffects twoLamps
        [.forAll [⟨"?l", "lamp"⟩] [.when (.not (.atom ⟨"lit", [.variableNamed "?l"]⟩))
          [.add ⟨"lit", [.variableNamed "?l"]⟩]],
         .forAll [⟨"?l", "lamp"⟩] [.when (.atom ⟨"lit", [.variableNamed "?l"]⟩)
          [.delete ⟨"lit", [.variableNamed "?l"]⟩]]]).outcome .empty = .ok d := by
  have bound : ∀ x ∈ Effect.freeIn toggling, Assignment.empty.get? x ≠ none := by decide
  have decidable : Effect.featuresIn toggling = [] := rfl
  have computed : ∃ d, (ofEffects twoLamps toggling).outcome .empty = .ok d ∧
      d.add.toList = [⟨"lit", [⟨"b", "lamp"⟩]⟩] ∧
      d.delete.toList = [⟨"lit", [⟨"a", "lamp"⟩]⟩] := by
    refine exists_ok_and ?_
    decide +kernel
  obtain ⟨d, gathered, added, deleted⟩ := computed
  obtain ⟨d', gathered', -, -, arranged⟩ := ofEffects_simultaneous _ _ _ bound decidable
  obtain rfl : d' = d := Except.ok.inj (gathered'.symm.trans gathered)
  refine ⟨bound, decidable, d', gathered, added, deleted, arranged _ ?_⟩
  exact .trans (.splitForAll _ [[_], [_]]) (.perm (List.Perm.swap _ _ _))

end Delta
end TypedPlanning
