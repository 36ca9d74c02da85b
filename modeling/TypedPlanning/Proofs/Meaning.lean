import TypedPlanning.Definition.Problem
import TypedPlanning.State
import Mathlib.Data.List.Forall2
import Mathlib.Data.Set.Lattice
import Mathlib.Logic.Relation
import Mathlib.Order.ConditionallyCompleteLattice.Basic

/-! The meaning of goals and effects as they are written, without a table, a scope or an order of
evaluation. A name stands for the first object declared under it and a variable for what the nearest
binder gives it; quantifiers range over the objects whose types reach the type asked for. -/

namespace TypedPlanning

def Object.of (d : Definition.TypedName) : Object := ⟨d.name, d.type⟩

namespace Definition

/-- The second type is the one written behind the first. Nothing is said about the root. -/
def Below (types : List TypedName) (sub sup : String) : Prop :=
  sub ≠ rootType ∧ ⟨sub, sup⟩ ∈ types

/-- One type is the other or lies below it; every type lies below the root. -/
def Reaches (types : List TypedName) (sub sup : String) : Prop :=
  Relation.ReflTransGen (Below types) sub sup ∨ sup = rootType

structure Setting where
  types : List TypedName
  objects : List TypedName

namespace Setting

def of (domain : Domain) (problem : Problem) : Setting :=
  ⟨domain.types, domain.constants ++ problem.objects⟩

def object? (σ : Setting) (name : String) : Option Object :=
  (σ.objects.find? (·.name == name)).map Object.of

/-- As many objects as variables, each of a type that reaches the one asked for. -/
def Admits (σ : Setting) (vs : List TypedName) (os : List Object) : Prop :=
  List.Forall₂ (fun o (v : TypedName) => σ.object? o.name = some o ∧ Reaches σ.types o.type v.type)
    os vs

end Setting

abbrev Environment := String → Option Object

namespace Environment

def empty : Environment := fun _ => none

/-- Binds one variable after the other, so that of two with one name the later counts. -/
def bind (env : Environment) (vs : List TypedName) (os : List Object) : Environment :=
  (vs.zip os).foldl (fun env pair => Function.update env pair.1.name (some pair.2)) env

end Environment

def Term.value? (σ : Setting) (env : Environment) : Term → Option Object
  | .name n => σ.object? n
  | .variableNamed x => env x

def Atom.Denotes (a : Atom) (σ : Setting) (env : Environment) (p : Fact) : Prop :=
  p.predicate = a.predicate ∧
    List.Forall₂ (fun t o => Term.value? σ env t = some o) a.terms p.arguments

namespace Goal

/-- Induction that knows every member of a conjunction or disjunction. -/
theorem induction {P : Goal → Prop} (atom : ∀ a, P (.atom a))
    (equal : ∀ left right, P (.equal left right)) (not : ∀ g, P g → P (.not g))
    (and : ∀ gs, (∀ g ∈ gs, P g) → P (.and gs)) (or : ∀ gs, (∀ g ∈ gs, P g) → P (.or gs))
    (imply : ∀ a b, P a → P b → P (.imply a b)) (forAll : ∀ vs g, P g → P (.forAll vs g))
    (forSome : ∀ vs g, P g → P (.forSome vs g)) (unsupported : ∀ f, P (.unsupported f)) :
    ∀ g, P g :=
  @Goal.rec P (fun gs => ∀ g ∈ gs, P g) atom equal not and or imply forAll forSome unsupported
    (by simp) fun g gs hg hgs => List.forall_mem_cons.mpr ⟨hg, hgs⟩

mutual

def features : Goal → List Feature
  | .atom _ => []
  | .equal _ _ => []
  | .not g => g.features
  | .and gs => featuresIn gs
  | .or gs => featuresIn gs
  | .imply a b => a.features ++ b.features
  | .forAll _ g => g.features
  | .forSome _ g => g.features
  | .unsupported feature => [feature]

def featuresIn : List Goal → List Feature
  | [] => []
  | g :: gs => g.features ++ featuresIn gs

end

mutual

def Holds (σ : Setting) (s : State) : Goal → Environment → Prop
  | .atom a, env => ∃ p ∈ s, a.Denotes σ env p
  | .equal left right, env => ∃ o, left.value? σ env = some o ∧ right.value? σ env = some o
  | .not g, env => ¬ g.Holds σ s env
  | .and gs, env => AllHold σ s gs env
  | .or gs, env => AnyHolds σ s gs env
  | .imply a b, env => a.Holds σ s env → b.Holds σ s env
  | .forAll vs g, env => ∀ os, σ.Admits vs os → g.Holds σ s (env.bind vs os)
  | .forSome vs g, env => ∃ os, σ.Admits vs os ∧ g.Holds σ s (env.bind vs os)
  | .unsupported _, _ => False

def AllHold (σ : Setting) (s : State) : List Goal → Environment → Prop
  | [], _ => True
  | g :: gs, env => g.Holds σ s env ∧ AllHold σ s gs env

def AnyHolds (σ : Setting) (s : State) : List Goal → Environment → Prop
  | [], _ => False
  | g :: gs, env => g.Holds σ s env ∨ AnyHolds σ s gs env

end

variable {σ : Setting} {s : State} {env : Environment}

@[simp] theorem holds_and {gs : List Goal} :
    (Goal.and gs).Holds σ s env ↔ ∀ g ∈ gs, g.Holds σ s env := by
  rw [Holds]
  induction gs with
  | nil => simp [AllHold]
  | cons g gs ih => simp [AllHold, ih]

@[simp] theorem holds_or {gs : List Goal} :
    (Goal.or gs).Holds σ s env ↔ ∃ g ∈ gs, g.Holds σ s env := by
  rw [Holds]
  induction gs with
  | nil => simp [AnyHolds]
  | cons g gs ih => simp [AnyHolds, ih]

end Goal

namespace Effect

theorem induction {P : Effect → Prop} (add : ∀ a, P (.add a)) (delete : ∀ a, P (.delete a))
    (and : ∀ es, (∀ e ∈ es, P e) → P (.and es)) (when : ∀ guard e, P e → P (.when guard e))
    (forAll : ∀ vs e, P e → P (.forAll vs e)) (unsupported : ∀ f, P (.unsupported f)) :
    ∀ e, P e :=
  @Effect.rec P (fun es => ∀ e ∈ es, P e) add delete and when forAll unsupported (by simp)
    fun e es he hes => List.forall_mem_cons.mpr ⟨he, hes⟩

mutual

def features : Effect → List Feature
  | .add _ => []
  | .delete _ => []
  | .and es => featuresIn es
  | .when guard e => guard.features ++ e.features
  | .forAll _ e => e.features
  | .unsupported feature => [feature]

def featuresIn : List Effect → List Feature
  | [] => []
  | e :: es => e.features ++ featuresIn es

end

mutual

/-- The facts that an effect adds and those that it deletes. All guards are read in one state. -/
def change (σ : Setting) (s : State) : Effect → Environment → Set Fact × Set Fact
  | .add a, env => ({p | a.Denotes σ env p}, ∅)
  | .delete a, env => (∅, {p | a.Denotes σ env p})
  | .and es, env => changeIn σ s es env
  | .when guard e, env => ⨆ _ : guard.Holds σ s env, e.change σ s env
  | .forAll vs e, env => ⨆ (os) (_ : σ.Admits vs os), e.change σ s (env.bind vs os)
  | .unsupported _, _ => ⊥

def changeIn (σ : Setting) (s : State) : List Effect → Environment → Set Fact × Set Fact
  | [], _ => ⊥
  | e :: es, env => e.change σ s env ⊔ changeIn σ s es env

end

theorem changeIn_eq_iSup (σ : Setting) (s : State) (es : List Effect) (env : Environment) :
    changeIn σ s es env = ⨆ e ∈ es, e.change σ s env := by
  induction es with
  | nil => simp [changeIn]
  | cons e es ih => simp [changeIn, ih, iSup_or, iSup_sup_eq]

end Effect
end Definition
end TypedPlanning
