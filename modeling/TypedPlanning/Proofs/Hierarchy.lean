import TypedPlanning.Definition.TypedName
import TypedPlanning.Proofs.Fallible
import TypedPlanning.Proofs.Meaning
import TypedPlanning.Proofs.Objects

/-! The subtype test and the declared types. Walking up a bounded number of steps finds every type
that can be reached by recorded super types, and those recorded are the ones written. -/

namespace TypedPlanning
namespace TypeHierarchy
open Relation

variable {h : TypeHierarchy} {a b : String}

def Up (h : TypeHierarchy) (sub sup : String) : Prop := h.parent? sub = some sup

theorem mem_superTypes_of_up {p : String} (up : h.Up a p) : (a, p) ∈ h.superTypes := by
  obtain ⟨before, after, split, -⟩ := List.lookup_eq_some_iff.mp up
  rw [split]
  exact List.mem_append_right _ List.mem_cons_self

theorem self_mem_chain (h : TypeHierarchy) (n : Nat) (t : String) : t ∈ h.chain n t := by
  rw [chain_eq_cons]
  exact List.mem_cons_self

theorem chain_succ (h : TypeHierarchy) {t p : String} (up : h.Up t p) (n : Nat) :
    h.chain (n + 1) t = t :: h.chain n p := by
  simp only [chain, show h.parent? t = some p from up]

theorem reflTransGen_of_mem_chain {n : Nat} (found : b ∈ h.chain n a) : ReflTransGen h.Up a b := by
  induction n generalizing a with
  | zero =>
    obtain rfl := List.mem_singleton.mp found
    exact .refl
  | succ n ih =>
    cases up : h.parent? a with
    | none =>
      rw [chain, up] at found
      obtain rfl := List.mem_singleton.mp found
      exact .refl
    | some p =>
      rw [h.chain_succ up, List.mem_cons] at found
      obtain rfl | found := found
      · exact .refl
      · exact .head up (ih found)

theorem mem_chain_mono {h' : TypeHierarchy} (more : ∀ x y, h.Up x y → h'.Up x y) {n m : Nat}
    (le : n ≤ m) (found : b ∈ h.chain n a) : b ∈ h'.chain m a := by
  induction n generalizing a m with
  | zero =>
    obtain rfl := List.mem_singleton.mp found
    exact h'.self_mem_chain m b
  | succ n ih =>
    obtain ⟨m, rfl⟩ : ∃ k, m = k + 1 := ⟨m - 1, by omega⟩
    cases up : h.parent? a with
    | none =>
      rw [chain, up] at found
      obtain rfl := List.mem_singleton.mp found
      exact h'.self_mem_chain _ b
    | some p =>
      rw [h.chain_succ up, List.mem_cons] at found
      rw [h'.chain_succ (more a p up), List.mem_cons]
      exact found.imp_right (ih (by omega))

def without (h : TypeHierarchy) (t : String) : TypeHierarchy :=
  { h with superTypes := h.superTypes.filter (·.1 ≠ t) }

theorem up_without {t x y : String} : (h.without t).Up x y ↔ x ≠ t ∧ h.Up x y := by
  simp only [Up, parent?, without]
  induction h.superTypes with
  | nil => simp
  | cons pair pairs ih =>
    by_cases same : pair.1 = t
    · rw [List.filter_cons_of_neg (by simpa using same), ih, List.lookup_cons]
      by_cases here : x = pair.1
      · simp [here, same]
      · simp [beq_false_of_ne here]
    · rw [List.filter_cons_of_pos (by simpa using same), List.lookup_cons, List.lookup_cons]
      by_cases here : x = pair.1
      · simp [here, same]
      · simpa [beq_false_of_ne here] using ih

/-- A walk that leaves a type for good never uses its super type again. -/
theorem exists_up_without (path : ReflTransGen h.Up a b) (ne : a ≠ b) :
    ∃ p, h.Up a p ∧ ReflTransGen (h.without a).Up p b := by
  induction path with
  | refl => exact absurd rfl ne
  | @tail c d _ up ih =>
    by_cases here : a = c
    · subst here
      exact ⟨d, up, .refl⟩
    · obtain ⟨p, first, rest⟩ := ih here
      exact ⟨p, first, rest.tail (up_without.mpr ⟨Ne.symm here, up⟩)⟩

theorem length_without_lt {p : String} (up : h.Up a p) :
    (h.without a).superTypes.length < h.superTypes.length :=
  List.length_filter_lt_length_iff_exists.mpr ⟨(a, p), mem_superTypes_of_up up, by simp⟩

/-- As many steps as there are recorded pairs reach everything that can be reached. -/
theorem mem_chain_of_reflTransGen (path : ReflTransGen h.Up a b) :
    b ∈ h.chain h.superTypes.length a := by
  generalize bound : h.superTypes.length = n
  induction n using Nat.strong_induction_on generalizing h a with
  | _ n ih =>
    by_cases same : a = b
    · subst same
      exact h.self_mem_chain n a
    · obtain ⟨p, up, rest⟩ := exists_up_without path same
      have shorter := length_without_lt up
      obtain ⟨m, rfl⟩ : ∃ m, n = m + 1 := ⟨n - 1, by omega⟩
      have found := ih _ (by omega) rest rfl
      rw [h.chain_succ up, List.mem_cons]
      exact .inr (mem_chain_mono (fun x y kept => (up_without.mp kept).2) (by omega) found)

/-- The subtype test says whether recorded steps lead up to the type, unless that is the root. -/
theorem isSubtype_iff_reflTransGen :
    h.isSubtype a b = true ↔ ReflTransGen h.Up a b ∨ b = rootType := by
  have walk : b ∈ h.chain h.superTypes.length a ↔ ReflTransGen h.Up a b :=
    ⟨reflTransGen_of_mem_chain, mem_chain_of_reflTransGen⟩
  rw [isSubtype_iff, ancestors, ← walk]
  split
  · next top =>
    constructor
    · exact .inl
    · rintro (found | rfl)
      · exact found
      · exact top
  · simp

end TypeHierarchy

namespace Definition
open Fallible

theorem inherit_eq_ok {h h' : TypeHierarchy} {sub sup : String} : h.inherit sub sup = .ok h' ↔
    h.Up sub sup ∧ h = h' ∨ h.parent? sub = none ∧ h.isSubtype sup sub = false ∧
      { h with superTypes := (sub, sup) :: h.superTypes } = h' := by
  have above : (sub == sup || h.isBelow sup sub) = h.isSubtype sup sub := by
    rw [TypeHierarchy.isSubtype, BEq.comm]
  rw [TypeHierarchy.inherit, above, TypeHierarchy.Up]
  cases h.parent? sub with
  | some p => by_cases same : p = sup <;> simp [same]
  | none => cases h.isSubtype sup sub <;> simp

theorem up_declare (h : TypeHierarchy) (t : String) {a b : String} :
    (h.declare t).Up a b ↔ h.Up a b := by
  unfold TypeHierarchy.declare
  split <;> rfl

theorem up_inherit {h h' : TypeHierarchy} {sub sup : String} (recorded : h.inherit sub sup = .ok h')
    {a b : String} : h'.Up a b ↔ h.Up a b ∨ a = sub ∧ b = sup := by
  obtain ⟨up, rfl⟩ | ⟨top, -, rfl⟩ := inherit_eq_ok.mp recorded
  · refine (or_iff_left_of_imp ?_).symm
    rintro ⟨rfl, rfl⟩
    exact up
  · simp only [TypeHierarchy.Up, TypeHierarchy.parent?, List.lookup_cons] at top ⊢
    by_cases here : a = sub
    · subst here
      simp [top, eq_comm]
    · simp [beq_false_of_ne here, here]

theorem declareType_eq_ok {h h' : TypeHierarchy} {d : TypedName} : declareType h d = .ok h' ↔
    d.name = rootType ∧ (h.declare d.name).declare d.type = h' ∨
    d.name ≠ rootType ∧ ((h.declare d.name).declare d.type).inherit d.name d.type = .ok h' := by
  by_cases root : d.name = rootType
  · simp [declareType, root]
  · simp only [declareType, root, if_false, ne_eq, not_false_eq_true, false_and, true_and, false_or]
    cases ((h.declare d.name).declare d.type).inherit d.name d.type with
    | ok _ => simp
    | error fault => cases fault <;> simp

theorem up_declareType {h h' : TypeHierarchy} {d : TypedName}
    (declared : declareType h d = .ok h') {a b : String} :
    h'.Up a b ↔ h.Up a b ∨ a ≠ rootType ∧ d = ⟨a, b⟩ := by
  obtain ⟨root, rfl⟩ | ⟨proper, recorded⟩ := declareType_eq_ok.mp declared
  · rw [up_declare, up_declare]
    refine (or_iff_left ?_).symm
    rintro ⟨proper, rfl⟩
    exact proper root
  · rw [up_inherit recorded, up_declare, up_declare]
    refine or_congr_right ?_
    constructor
    · rintro ⟨rfl, rfl⟩
      exact ⟨proper, rfl⟩
    · rintro ⟨-, rfl⟩
      exact ⟨rfl, rfl⟩

theorem up_typeHierarchy {ds : List TypedName} {h : TypeHierarchy}
    (declared : typeHierarchy ds = .ok h) {a b : String} : h.Up a b ↔ Below ds a b := by
  suffices fold : ∀ h₀ : TypeHierarchy, ds.foldlM declareType h₀ = .ok h →
      (h.Up a b ↔ h₀.Up a b ∨ Below ds a b) by
    rw [fold .initial declared]
    exact or_iff_right (by simp [TypeHierarchy.Up, TypeHierarchy.parent?, TypeHierarchy.initial])
  clear declared
  induction ds with
  | nil =>
    intro h₀ declared
    obtain rfl := Except.ok.inj declared
    simp [Below]
  | cons d ds ih =>
    intro h₀ declared
    rw [List.foldlM_cons] at declared
    obtain ⟨h₁, first, rest⟩ := bind_eq_ok.mp declared
    rw [ih h₁ rest, up_declareType first, or_assoc, Below, Below, ← and_or_left, List.mem_cons,
      eq_comm]

/-- The subtype test of declared types is reachability by what is written. -/
theorem isSubtype_iff_reaches {ds : List TypedName} {h : TypeHierarchy}
    (declared : typeHierarchy ds = .ok h) {a b : String} :
    h.isSubtype a b = true ↔ Reaches ds a b := by
  have same : h.Up = Below ds := by
    funext x y
    exact propext (up_typeHierarchy declared)
  rw [TypeHierarchy.isSubtype_iff_reflTransGen, Reaches, same]

end Definition
end TypedPlanning
