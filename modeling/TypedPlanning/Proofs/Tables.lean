import TypedPlanning.NamedTable

/-! What is found in a table by name: of all items that were inserted under the name, the last. -/

namespace TypedPlanning
namespace NamedTable
variable {α : Type} {t : NamedTable α} {item : α} {name : String}

theorem get?_empty (name : String) : (empty : NamedTable α).get? name = none := by
  simp [get?, empty]

theorem get?_eq_some : t.get? name = some item ↔
    ∃ i, t.positions[name]? = some i ∧ t.items[i]? = some item := by
  simp [get?, Option.bind_eq_some_iff]

variable [Named α]

/-- Names and items point at each other, so a name has one position and that position one name. -/
structure Coherent (t : NamedTable α) : Prop where
  item_of_position : ∀ {name : String} {i : Nat}, t.positions[name]? = some i →
    ∃ item, t.items[i]? = some item ∧ Named.name item = name
  position_of_item : ∀ {i : Nat} {item : α}, t.items[i]? = some item →
    t.positions[Named.name item]? = some i

theorem coherent_empty : (empty : NamedTable α).Coherent where
  item_of_position found := by simp [empty] at found
  position_of_item found := by simp [empty] at found

theorem Coherent.name_eq (coherent : t.Coherent) {other : String} {i : Nat}
    (at_i : t.positions[name]? = some i) (other_at_i : t.positions[other]? = some i) :
    name = other := by
  obtain ⟨item, found, named⟩ := coherent.item_of_position at_i
  obtain ⟨item', found', named'⟩ := coherent.item_of_position other_at_i
  have same : item = item' := Option.some.inj (found.symm.trans found')
  rw [← named, ← named', same]

theorem Coherent.name_of_get? (coherent : t.Coherent) (found : t.get? name = some item) :
    Named.name item = name := by
  obtain ⟨i, at_i, items_i⟩ := get?_eq_some.mp found
  exact coherent.name_eq (coherent.position_of_item items_i) at_i

theorem Coherent.mem_toList_iff (coherent : t.Coherent) :
    item ∈ t.toList ↔ t.get? (Named.name item) = some item := by
  rw [toList, Array.mem_toList_iff, Array.mem_iff_getElem?, get?_eq_some]
  constructor
  · rintro ⟨i, found⟩
    exact ⟨i, coherent.position_of_item found, found⟩
  · rintro ⟨i, -, found⟩
    exact ⟨i, found⟩

theorem Coherent.eq_of_name_eq (coherent : t.Coherent) {other : α} (h : item ∈ t.toList)
    (h' : other ∈ t.toList) (same : Named.name item = Named.name other) : item = other := by
  have found := coherent.mem_toList_iff.mp h
  rw [same, coherent.mem_toList_iff.mp h'] at found
  exact (Option.some.inj found).symm

theorem Coherent.lt_size (coherent : t.Coherent) {i : Nat} (at_i : t.positions[name]? = some i) :
    i < t.items.size := by
  obtain ⟨item, found, -⟩ := coherent.item_of_position at_i
  exact (Array.getElem?_eq_some_iff.mp found).1

theorem insert_of_some {i : Nat} (at_i : t.positions[Named.name item]? = some i) :
    t.insert item = ⟨t.items.setIfInBounds i item, t.positions⟩ := by
  rw [NamedTable.insert, getThenInsert?, at_i]

/-- The new item has the name of the one it replaces, so no position changes. -/
theorem Coherent.replace (coherent : t.Coherent) {i : Nat}
    (at_i : t.positions[Named.name item]? = some i) :
    (⟨t.items.setIfInBounds i item, t.positions⟩ : NamedTable α).Coherent := by
  have inside := coherent.lt_size at_i
  constructor
  · intro name j at_j
    by_cases same : i = j
    · subst same
      exact ⟨item, by simp [inside], coherent.name_eq at_i at_j⟩
    · simpa [Array.getElem?_setIfInBounds_ne same] using coherent.item_of_position at_j
  · intro j item' found
    by_cases same : i = j
    · subst same
      rw [Array.getElem?_setIfInBounds_self_of_lt inside] at found
      obtain rfl := Option.some.inj found
      exact at_i
    · rw [Array.getElem?_setIfInBounds_ne same] at found
      exact coherent.position_of_item found

theorem Coherent.get?_replace (coherent : t.Coherent) {i : Nat}
    (at_i : t.positions[Named.name item]? = some i) (name : String) :
    (⟨t.items.setIfInBounds i item, t.positions⟩ : NamedTable α).get? name =
      if name = Named.name item then some item else t.get? name := by
  have inside := coherent.lt_size at_i
  rw [get?, get?]
  by_cases same : name = Named.name item
  · simp [same, at_i, inside]
  · rw [if_neg same]
    cases at_name : t.positions[name]? with
    | none => rfl
    | some j =>
      have apart : i ≠ j := by
        rintro rfl
        exact same (coherent.name_eq at_name at_i)
      simp [Array.getElem?_setIfInBounds_ne apart]

theorem insert_of_none (fresh : t.positions[Named.name item]? = none) :
    t.insert item = ⟨t.items.push item, t.positions.insert (Named.name item) t.items.size⟩ := by
  rw [NamedTable.insert, getThenInsert?, fresh]

theorem getElem?_insert_positions (positions : Std.TreeMap String Nat) (name name' : String)
    (i : Nat) : (positions.insert name i)[name']? =
      if name' = name then some i else positions[name']? := by
  rw [Std.TreeMap.getElem?_insert]
  simp only [Std.LawfulEqCmp.compare_eq_iff_eq, eq_comm (a := name)]

theorem Coherent.append (coherent : t.Coherent) (fresh : t.positions[Named.name item]? = none) :
    (⟨t.items.push item, t.positions.insert (Named.name item) t.items.size⟩ :
      NamedTable α).Coherent := by
  constructor
  · intro name j at_j
    rw [getElem?_insert_positions] at at_j
    by_cases same : name = Named.name item
    · rw [if_pos same] at at_j
      obtain rfl := Option.some.inj at_j
      exact ⟨item, by simp, same.symm⟩
    · rw [if_neg same] at at_j
      obtain ⟨item', found, named⟩ := coherent.item_of_position at_j
      have inside := coherent.lt_size at_j
      exact ⟨item', by rw [Array.getElem?_push, if_neg (Nat.ne_of_lt inside), found], named⟩
  · intro j item' found
    rw [getElem?_insert_positions]
    rw [Array.getElem?_push] at found
    by_cases last : j = t.items.size
    · rw [if_pos last] at found
      obtain rfl := Option.some.inj found
      rw [if_pos rfl, last]
    · rw [if_neg last] at found
      have at_j := coherent.position_of_item found
      have other : ¬ Named.name item' = Named.name item := by
        intro same
        rw [same, fresh] at at_j
        cases at_j
      rw [if_neg other, at_j]

theorem Coherent.get?_append (coherent : t.Coherent) (item : α) (name : String) :
    (⟨t.items.push item, t.positions.insert (Named.name item) t.items.size⟩ :
      NamedTable α).get? name = if name = Named.name item then some item else t.get? name := by
  simp only [get?, getElem?_insert_positions]
  by_cases same : name = Named.name item
  · simp [same]
  · rw [if_neg same, if_neg same]
    cases at_name : t.positions[name]? with
    | none => rfl
    | some j =>
      have inside := coherent.lt_size at_name
      simp [Array.getElem?_push, Nat.ne_of_lt inside]

theorem Coherent.insert (coherent : t.Coherent) (item : α) : (t.insert item).Coherent := by
  cases found : t.positions[Named.name item]? with
  | some i =>
    rw [insert_of_some found]
    exact coherent.replace found
  | none =>
    rw [insert_of_none found]
    exact coherent.append found

theorem Coherent.get?_insert (coherent : t.Coherent) (item : α) (name : String) :
    (t.insert item).get? name = if name = Named.name item then some item else t.get? name := by
  cases found : t.positions[Named.name item]? with
  | some i =>
    rw [insert_of_some found]
    exact coherent.get?_replace found name
  | none =>
    rw [insert_of_none found]
    exact coherent.get?_append item name

/-- Of all items inserted under a name the last is found. -/
theorem Coherent.get?_foldl_insert (coherent : t.Coherent) (items : List α) (name : String) :
    (items.foldl NamedTable.insert t).get? name =
      (items.reverse.find? (Named.name · == name)).or (t.get? name) := by
  induction items generalizing t with
  | nil => rfl
  | cons item items ih =>
    rw [List.foldl_cons, ih (coherent.insert item), coherent.get?_insert, List.reverse_cons,
      List.find?_append, Option.or_assoc]
    by_cases same : name = Named.name item
    · simp [same]
    · simp [same, eq_comm (a := Named.name item)]

theorem Coherent.foldl_insert (coherent : t.Coherent) (items : List α) :
    (items.foldl NamedTable.insert t).Coherent := by
  induction items generalizing t with
  | nil => exact coherent
  | cons item items ih => exact ih (coherent.insert item)

end NamedTable
end TypedPlanning
