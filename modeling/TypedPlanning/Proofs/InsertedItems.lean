import TypedPlanning.Proofs.Listings

/-! What a table holds of the items that were put into it one after the other. Every name has the
place that it got when it came first, the last item of the name stands there, and the position
under the name leads to it. An insertion hands out the item that has to give way. -/

namespace TypedPlanning
namespace NamedTable
variable {α : Type} [Named α] {t : NamedTable α} {items : List α} {item : α} {name : String}

/-- One of the items, and none behind it has its name. -/
def IsLast (items : List α) (item : α) : Prop :=
  ∃ before after, items = before ++ item :: after ∧
    ∀ other ∈ after, Named.name other ≠ Named.name item

theorem find?_reverse_eq_some_iff :
    items.reverse.find? (Named.name · == name) = some item ↔
      IsLast items item ∧ Named.name item = name := by
  rw [List.find?_eq_some_iff_append, and_comm, beq_iff_eq]
  refine and_congr_left fun same => ?_
  subst same
  constructor
  · -- seen from the end, what was inserted later comes first
    rintro ⟨after, before, split, others⟩
    refine ⟨before.reverse, after.reverse, ?_, fun other hother => ?_⟩
    · rw [List.reverse_eq_iff.mp split, List.reverse_append, List.reverse_cons, List.append_assoc]
      rfl
    · simpa using others other (List.mem_reverse.mp hother)
  · rintro ⟨before, after, rfl, others⟩
    refine ⟨after.reverse, before.reverse, by simp, fun other hother => ?_⟩
    simpa using others other (List.mem_reverse.mp hother)

theorem get?_ofList (items : List α) (name : String) :
    (ofList items).get? name = items.reverse.find? (Named.name · == name) := by
  rw [ofList, coherent_empty.get?_foldl_insert, get?_empty, Option.or_none]

theorem get?_ofList_eq_some_iff :
    (ofList items).get? name = some item ↔ IsLast items item ∧ Named.name item = name := by
  rw [get?_ofList, find?_reverse_eq_some_iff]

theorem get?_ofList_eq_none_iff :
    (ofList items).get? name = none ↔ ∀ item ∈ items, Named.name item ≠ name := by
  simp [get?_ofList]

theorem coherent_ofList (items : List α) : (ofList items).Coherent :=
  coherent_empty.foldl_insert items

theorem ofList_concat (items : List α) (item : α) :
    ofList (items ++ [item]) = (ofList items).insert item := by
  rw [ofList, List.foldl_append, ← ofList, List.foldl_cons, List.foldl_nil]

theorem fst_getThenInsert? (t : NamedTable α) (item : α) :
    (t.getThenInsert? item).1 = t.get? (Named.name item) := by
  unfold getThenInsert? get?
  cases t.positions[Named.name item]? <;> rfl

theorem Coherent.position_iff (coherent : t.Coherent) {i : Nat} :
    t.positions[name]? = some i ↔ ∃ inside : i < t.items.size, Named.name t.items[i] = name := by
  constructor
  · intro at_i
    obtain ⟨item, found, named⟩ := coherent.item_of_position at_i
    obtain ⟨inside, rfl⟩ := Array.getElem?_eq_some_iff.mp found
    exact ⟨inside, named⟩
  · rintro ⟨inside, rfl⟩
    exact coherent.position_of_item (Array.getElem?_eq_getElem inside)

theorem Coherent.exists_position_iff (coherent : t.Coherent) :
    (∃ i, t.positions[name]? = some i) ↔ t.get? name ≠ none := by
  constructor
  · rintro ⟨i, at_i⟩
    obtain ⟨item, found, -⟩ := coherent.item_of_position at_i
    rw [get?_eq_some.mpr ⟨i, at_i, found⟩]
    exact Option.some_ne_none item
  · intro found
    obtain ⟨item, found⟩ := Option.ne_none_iff_exists'.mp found
    obtain ⟨i, at_i, -⟩ := get?_eq_some.mp found
    exact ⟨i, at_i⟩

/-- The table holds, of items inserted in this order, the last of each name. -/
structure Keeps (t : NamedTable α) (items : List α) : Prop where
  position : ∀ name i, t.positions[name]? = some i ↔
    ∃ inside : i < t.items.size, Named.name t.items[i] = name
  inserted : ∀ name, (∃ i, t.positions[name]? = some i) ↔ ∃ item ∈ items, Named.name item = name
  distinct : ∀ i j (hi : i < t.items.size) (hj : j < t.items.size),
    Named.name t.items[i] = Named.name t.items[j] → i = j
  order : t.toList.map Named.name = (items.map Named.name).eraseDups
  last : ∀ item, item ∈ t.toList ↔ IsLast items item
  get? : ∀ name item, t.get? name = some item ↔ IsLast items item ∧ Named.name item = name
  unknown : ∀ name, t.get? name = none ↔ ∀ item ∈ items, Named.name item ≠ name
  /-- One more item takes the place of what was found under its name. -/
  replaced : ∀ item, t.getThenInsert? item = (t.get? (Named.name item), ofList (items ++ [item]))

/-- Insertion after insertion positions and items stay in step, also where an item replaces another,
so no name ever leads to an item of another name. -/
theorem keeps_ofList (items : List α) : (ofList items).Keeps items := by
  have coherent : (ofList items).Coherent := coherent_ofList items
  constructor
  case position => exact fun name i => coherent.position_iff
  case inserted =>
    intro name
    rw [coherent.exists_position_iff, Ne, get?_ofList_eq_none_iff]
    simp
  case distinct =>
    intro i j hi hj same
    -- both are positions of one name, and the look-up gives one
    have at_i := coherent.position_iff.mpr ⟨hi, same⟩
    have at_j := coherent.position_iff.mpr ⟨hj, rfl⟩
    exact Option.some.inj (at_i.symm.trans at_j)
  case order => exact map_name_foldl_insert items
  case last =>
    intro item
    rw [coherent.mem_toList_iff, get?_ofList_eq_some_iff, and_iff_left rfl]
  case get? => exact fun name item => get?_ofList_eq_some_iff
  case unknown => exact fun name => get?_ofList_eq_none_iff
  case replaced =>
    intro item
    rw [ofList_concat]
    exact Prod.ext (fst_getThenInsert? _ item) rfl

/-- The later `b` stands where the first one stood. -/
example : (ofList [⟨"b", []⟩, ⟨"a", []⟩, ⟨"b", ["door"]⟩] : NamedTable Signature).toList =
    [⟨"b", ["door"]⟩, ⟨"a", []⟩] := rfl

end NamedTable
end TypedPlanning
