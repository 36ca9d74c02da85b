import TypedPlanning.Proofs.Ancestors

/-! Which declarations of types are accepted. Each declaration is checked against those before it,
but all of them are accepted exactly if what is written is a forest. So the order of declaration
does not matter, for acceptance as for what the types mean. -/

namespace TypedPlanning
namespace Definition
open Fallible Relation

variable {ds : List TypedName} {h h' : TypeHierarchy} {d : TypedName}

/-- No type is written with two super types, and none lies above itself. -/
structure Forest (ds : List TypedName) : Prop where
  functional : ∀ {sub sup sup'}, Below ds sub sup → Below ds sub sup' → sup = sup'
  acyclic : ∀ t, ¬ TransGen (Below ds) t t

theorem forest_of_typeHierarchy (declared : typeHierarchy ds = .ok h) : Forest ds := by
  have same : h.Up = Below ds := by
    funext a b
    exact propext (up_typeHierarchy declared)
  constructor
  · intro sub sup sup' first second
    rw [← same] at first second
    exact Option.some.inj (Eq.trans (Eq.symm first) second)
  · exact same ▸ (made_typeHierarchy declared).acyclic

/-- A hierarchy with no other steps than those of a forest takes every step of it. -/
theorem Forest.exists_declareType (forest : Forest ds) (inside : ∀ a b, h.Up a b → Below ds a b)
    (hd : d ∈ ds) : ∃ h', declareType h d = .ok h' := by
  simp only [declareType_eq_ok]
  by_cases root : d.name = rootType
  · exact ⟨_, .inl ⟨root, rfl⟩⟩
  have inside (a b : String) (up : ((h.declare d.name).declare d.type).Up a b) : Below ds a b := by
    rw [up_declare, up_declare] at up
    exact inside a b up
  generalize (h.declare d.name).declare d.type = g at inside
  have written : Below ds d.name d.type := ⟨root, hd⟩
  suffices recorded : ∃ h', g.inherit d.name d.type = .ok h' from
    recorded.imp fun h' recorded => .inr ⟨root, recorded⟩
  simp only [inherit_eq_ok]
  cases up : g.parent? d.name with
  | some p =>
    obtain rfl : p = d.type := forest.functional (inside _ _ up) written
    exact ⟨_, .inl ⟨up, rfl⟩⟩
  | none =>
    have apart : g.isSubtype d.type d.name = false := by
      rw [← Bool.not_eq_true, TypeHierarchy.isSubtype_iff_reflTransGen]
      rintro (path | top)
      · exact forest.acyclic _ (.head' written (path.lift id inside))
      · exact root top
    exact ⟨_, .inr ⟨rfl, apart, rfl⟩⟩

theorem Forest.exists_foldlM_declareType (forest : Forest ds) {ds' : List TypedName}
    (part : ∀ d ∈ ds', d ∈ ds) (inside : ∀ a b, h.Up a b → Below ds a b) :
    ∃ h', ds'.foldlM declareType h = .ok h' := by
  induction ds' generalizing h with
  | nil => exact ⟨h, rfl⟩
  | cons d ds' ih =>
    obtain ⟨hd, rest⟩ := List.forall_mem_cons.mp part
    obtain ⟨h₁, declared⟩ := forest.exists_declareType inside hd
    have inside₁ (a b : String) (up : h₁.Up a b) : Below ds a b := by
      obtain up | ⟨proper, rfl⟩ := (up_declareType declared).mp up
      · exact inside a b up
      · exact ⟨proper, hd⟩
    obtain ⟨h', done⟩ := ih rest inside₁
    refine ⟨h', ?_⟩
    rw [List.foldlM_cons, declared]
    exact done

theorem exists_typeHierarchy_iff : (∃ h, typeHierarchy ds = .ok h) ↔ Forest ds := by
  constructor
  · rintro ⟨h, declared⟩
    exact forest_of_typeHierarchy declared
  · intro forest
    exact forest.exists_foldlM_declareType (fun _ => id) fun a b up => by cases up

theorem mem_types_declareType (declared : declareType h d = .ok h') {t : String} :
    t ∈ h'.types ↔ t = d.name ∨ t = d.type ∨ t ∈ h.types := by
  have named : t ∈ ((h.declare d.name).declare d.type).types ↔
      t = d.name ∨ t = d.type ∨ t ∈ h.types := by
    rw [TypeHierarchy.mem_types_declare, TypeHierarchy.mem_types_declare, or_left_comm]
  obtain ⟨-, rfl⟩ | ⟨-, recorded⟩ := declareType_eq_ok.mp declared
  · exact named
  · rwa [TypeHierarchy.types_inherit recorded]

theorem mem_types_typeHierarchy (declared : typeHierarchy ds = .ok h) {t : String} :
    t ∈ h.types ↔ t = rootType ∨ ∃ d ∈ ds, t = d.name ∨ t = d.type := by
  suffices fold : ∀ h₀ : TypeHierarchy, ds.foldlM declareType h₀ = .ok h →
      (t ∈ h.types ↔ t ∈ h₀.types ∨ ∃ d ∈ ds, t = d.name ∨ t = d.type) by
    simpa [TypeHierarchy.initial] using fold .initial declared
  clear declared
  induction ds with
  | nil =>
    intro h₀ declared
    obtain rfl := Except.ok.inj declared
    simp
  | cons d ds ih =>
    intro h₀ declared
    rw [List.foldlM_cons] at declared
    obtain ⟨h₁, first, rest⟩ := bind_eq_ok.mp declared
    rw [ih h₁ rest, mem_types_declareType first]
    simp only [List.mem_cons, exists_eq_or_imp, or_assoc, or_left_comm]

theorem below_congr {ds' : List TypedName} (same : ∀ d, d ∈ ds' ↔ d ∈ ds) :
    Below ds' = Below ds := by
  funext a b
  exact propext (and_congr_right fun _ => same _)

theorem exists_typeHierarchy_of_same {ds' : List TypedName} (same : ∀ d, d ∈ ds' ↔ d ∈ ds)
    (declared : typeHierarchy ds = .ok h) : ∃ h', typeHierarchy ds' = .ok h' ∧
      (∀ t, t ∈ h'.types ↔ t ∈ h.types) ∧ ∀ a b, h'.isSubtype a b = h.isSubtype a b := by
  have below := below_congr same
  have forest := forest_of_typeHierarchy declared
  obtain ⟨h', declared'⟩ : ∃ h', typeHierarchy ds' = .ok h' := by
    refine exists_typeHierarchy_iff.mpr ⟨fun first second => ?_, fun t => ?_⟩
    · rw [below] at first second
      exact forest.functional first second
    · rw [below]
      exact forest.acyclic t
  refine ⟨h', declared', fun t => ?_, fun a b => ?_⟩
  · simp only [mem_types_typeHierarchy declared', mem_types_typeHierarchy declared, same]
  · rw [Bool.eq_iff_iff, isSubtype_iff_reaches declared', isSubtype_iff_reaches declared, Reaches,
      Reaches, below]

/-- Declarations are accepted, in any order and with any repetitions, exactly if what is written
behind the types other than the root is a forest. Then one type is a subtype of another one if what
is written leads up to that or that is the root, and the types are those written and the root. -/
theorem typeHierarchy_accepts_forests (ds : List TypedName) :
    ((∃ h, typeHierarchy ds = .ok h) ↔ Forest ds) ∧
    (∀ ds', (∀ d, d ∈ ds' ↔ d ∈ ds) →
      ((∃ h, typeHierarchy ds' = .ok h) ↔ ∃ h, typeHierarchy ds = .ok h)) ∧
    ∀ h, typeHierarchy ds = .ok h →
      (∀ a b, h.isSubtype a b = true ↔ ReflTransGen (Below ds) a b ∨ b = rootType) ∧
      (∀ t, t ∈ h.types ↔ t = rootType ∨ ∃ d ∈ ds, t = d.name ∨ t = d.type) ∧ h.types.Nodup := by
  refine ⟨exists_typeHierarchy_iff, fun ds' same => ⟨?_, ?_⟩, fun h declared => ⟨?_, ?_, ?_⟩⟩
  · rintro ⟨h', declared'⟩
    obtain ⟨h, declared, -⟩ := exists_typeHierarchy_of_same (fun d => (same d).symm) declared'
    exact ⟨h, declared⟩
  · rintro ⟨h, declared⟩
    obtain ⟨h', declared', -⟩ := exists_typeHierarchy_of_same same declared
    exact ⟨h', declared'⟩
  · exact fun a b => isSubtype_iff_reaches declared
  · exact fun t => mem_types_typeHierarchy declared
  · exact (made_typeHierarchy declared).nodup_types

/-- The root is written with a super type here, and a type before its own super type. -/
def trucks : List TypedName :=
  [⟨"truck", "vehicle"⟩, ⟨"object", "truck"⟩, ⟨"vehicle", "thing"⟩, ⟨"truck", "vehicle"⟩]

theorem typeHierarchy_accepts_forests_trucks : Forest trucks ∧
    (∃ h, typeHierarchy trucks.reverse = .ok h) ∧
    ∃ h, typeHierarchy trucks = .ok h ∧ h.types = ["object", "truck", "vehicle", "thing"] ∧
      h.isSubtype "truck" "thing" = true ∧ h.isSubtype "object" "truck" = false := by
  obtain ⟨h, declared, types, below⟩ : ∃ h, typeHierarchy trucks = .ok h ∧
      h.types = ["object", "truck", "vehicle", "thing"] ∧ h.isSubtype "object" "truck" = false := by
    refine exists_ok_and ?_
    decide +kernel
  obtain ⟨forest, same, order⟩ := typeHierarchy_accepts_forests trucks
  have lower : Below trucks "truck" "vehicle" := ⟨by decide, by decide⟩
  have upper : Below trucks "vehicle" "thing" := ⟨by decide, by decide⟩
  have path : ReflTransGen (Below trucks) "truck" "thing" := .tail (.single lower) upper
  exact ⟨forest.mp ⟨h, declared⟩, (same _ fun _ => List.mem_reverse).mpr ⟨h, declared⟩, h, declared,
    types, ((order h declared).1 _ _).mpr (.inl path), below⟩

end Definition
end TypedPlanning
