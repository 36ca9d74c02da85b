import TypedPlanning.ObjectTable
import Mathlib.Tactic.Tauto

/-! What is found in a table of objects: by name the first object declared under it, by type the
objects whose own type reaches it. -/

namespace TypedPlanning
namespace TypeHierarchy

theorem chain_eq_cons (h : TypeHierarchy) (n : Nat) (t : String) :
    h.chain n t = t :: (h.chain n t).tail := by
  cases n with
  | zero => rfl
  | succ n => unfold chain; split <;> rfl

theorem ancestors_eq_cons (h : TypeHierarchy) (t : String) :
    h.ancestors t = t :: (h.ancestors t).tail := by
  have first := h.chain_eq_cons h.superTypes.length t
  generalize (h.chain h.superTypes.length t).tail = rest at first
  simp only [ancestors, first]
  split <;> rfl

theorem isSubtype_iff {h : TypeHierarchy} {sub sup : String} :
    h.isSubtype sub sup = true ↔ sup ∈ h.ancestors sub := by
  have first := h.ancestors_eq_cons sub
  simp only [isSubtype, isBelow, Bool.or_eq_true, beq_iff_eq, List.contains_iff_mem]
  generalize (h.ancestors sub).tail = rest at first
  rw [first, List.mem_cons, eq_comm]

end TypeHierarchy

namespace ObjectTable

@[simp] theorem get?_empty (types : TypeHierarchy) (name : String) :
    (empty types).get? name = none := by
  simp [get?, empty]

theorem insert_of_some {t : ObjectTable} {o old : Object} (found : t.get? o.name = some old) :
    t.insert o = t := by
  rw [insert, found]

theorem insert_of_none {t : ObjectTable} {o : Object} (fresh : t.get? o.name = none) :
    t.insert o = ⟨t.types, t.objects ++ [o], t.byName.insert o.name o,
      (t.types.ancestors o.type).foldl (list o) t.listings⟩ := by
  rw [insert, fresh]

theorem get?_insert (t : ObjectTable) (o : Object) (name : String) :
    (t.insert o).get? name = (t.get? name).or (if o.name = name then some o else none) := by
  by_cases same : o.name = name
  · subst same
    cases found : t.get? o.name with
    | some old => rw [insert_of_some found, found, Option.some_or]
    | none =>
      rw [insert_of_none found, if_pos rfl, Option.none_or]
      exact Std.TreeMap.getElem?_insert_self
  · rw [if_neg same, Option.or_none]
    cases found : t.get? o.name with
    | some old => rw [insert_of_some found]
    | none =>
      rw [insert_of_none found, get?, Std.TreeMap.getElem?_insert,
        if_neg (Std.LawfulEqCmp.compare_eq_iff_eq.not.mpr same), ← get?]

@[simp] theorem get?_ofList (types : TypeHierarchy) (objects : List Object) (name : String) :
    (ofList types objects).get? name = objects.find? (·.name == name) := by
  suffices h : ∀ t : ObjectTable,
      (objects.foldl insert t).get? name = (t.get? name).or (objects.find? (·.name == name)) from
    by rw [ofList, h, get?_empty, Option.none_or]
  induction objects with
  | nil => simp
  | cons o objects ih =>
    intro t
    rw [List.foldl_cons, ih, get?_insert, Option.or_assoc]
    by_cases same : o.name = name <;> simp [same]

/-- What a table must keep for its maps to be right: the objects found by name are those of the
table, each under its own name, and an object is listed under a type exactly if its own type
reaches it. -/
structure Coherent (t : ObjectTable) : Prop where
  get?_eq_some_iff : ∀ {name : String} {o : Object},
    t.get? name = some o ↔ o ∈ t.objects ∧ o.name = name
  mem_lookup : ∀ {type : String} {o : Object},
    o ∈ t.lookup type ↔ o ∈ t.objects ∧ t.satisfies o type = true

theorem Coherent.mem_of_get? {t : ObjectTable} (coherent : t.Coherent) {name : String}
    {o : Object} (found : t.get? name = some o) : o ∈ t.objects :=
  (coherent.get?_eq_some_iff.mp found).1

theorem Coherent.mem_objects_iff {t : ObjectTable} (coherent : t.Coherent) {o : Object} :
    o ∈ t.objects ↔ t.get? o.name = some o := by
  rw [coherent.get?_eq_some_iff, and_iff_left rfl]

theorem mem_foldl_list {o o' : Object} {type : String} {types : List String}
    {listings : Std.TreeMap String (List Object)} :
    o' ∈ (types.foldl (list o) listings).getD type [] ↔
      o' ∈ listings.getD type [] ∨ o' = o ∧ type ∈ types := by
  induction types generalizing listings with
  | nil => simp
  | cons u types ih =>
    rw [List.foldl_cons, ih, list, Std.TreeMap.getD_insert]
    by_cases same : u = type
    · simp only [same, Std.LawfulEqCmp.compare_eq_iff_eq, if_true, List.mem_append,
        List.mem_cons, true_or, and_true, or_assoc]
      tauto
    · simp [same, eq_comm (a := type)]

theorem lookup_empty (types : TypeHierarchy) (type : String) : (empty types).lookup type = [] := by
  suffices none_listed : ∀ (declared : List String) (listings : Std.TreeMap String (List Object)),
      listings.getD type [] = [] →
      (declared.foldl (fun listings type => listings.insert type []) listings).getD type [] =
        [] from
    none_listed types.types ∅ (by simp)
  intro declared
  induction declared with
  | nil => exact fun listings none_listed => none_listed
  | cons u declared ih =>
    intro listings none_listed
    refine ih _ ?_
    rw [Std.TreeMap.getD_insert, none_listed, ite_self]

theorem coherent_empty (types : TypeHierarchy) : (empty types).Coherent where
  get?_eq_some_iff := by
    intro name o
    rw [get?_empty]
    simp [empty]
  mem_lookup := by
    intro type o
    rw [lookup_empty]
    simp [empty]

theorem Coherent.insert {t : ObjectTable} (coherent : t.Coherent) (o : Object) :
    (t.insert o).Coherent := by
  cases found : t.get? o.name with
  | some old =>
    rw [insert_of_some found]
    exact coherent
  | none =>
    constructor
    case get?_eq_some_iff =>
      intro name o'
      rw [get?_insert, insert_of_none found, List.mem_append, List.mem_singleton, or_and_right,
        ← coherent.get?_eq_some_iff]
      by_cases same : o.name = name
      · rw [← same, found, if_pos rfl, Option.none_or, Option.some.injEq, eq_comm]
        simp +contextual
      · rw [if_neg same, Option.or_none]
        refine (or_iff_left ?_).symm
        rintro ⟨rfl, named⟩
        exact same named
    case mem_lookup =>
      intro type o'
      have old : o' ∈ t.lookup type ↔ _ := coherent.mem_lookup
      rw [insert_of_none found]
      simp only [lookup, satisfies, mem_foldl_list, List.mem_append, List.mem_singleton] at old ⊢
      rw [old, or_and_right, TypeHierarchy.isSubtype_iff]
      refine or_congr_right (and_congr_right fun same => ?_)
      rw [same]

theorem coherent_ofList (types : TypeHierarchy) (objects : List Object) :
    (ofList types objects).Coherent := by
  suffices h : ∀ t : ObjectTable, t.Coherent → (objects.foldl ObjectTable.insert t).Coherent from
    h _ (coherent_empty types)
  induction objects with
  | nil => exact fun t coherent => coherent
  | cons o objects ih => exact fun t coherent => ih _ (coherent.insert o)

end ObjectTable
end TypedPlanning
