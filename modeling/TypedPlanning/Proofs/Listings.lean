import TypedPlanning.Proofs.Ancestors
import TypedPlanning.Proofs.Tables
import Mathlib.Data.List.Induction

/-! The order in which tables keep what is put into them. Every name has one place, which it gets
when it is declared first. The objects listed under a type are all objects of that type, in the
order of the table. -/

namespace TypedPlanning

section FirstOccurrences
variable {α : Type} [BEq α] [LawfulBEq α]

theorem eraseDups_concat (as : List α) (a : α) :
    (as ++ [a]).eraseDups = if as.contains a then as.eraseDups else as.eraseDups ++ [a] := by
  by_cases known : a ∈ as
  · simp [List.eraseDups_append, List.removeAll, known]
  · simp [List.eraseDups_append, List.removeAll, List.eraseDups_cons, known]

theorem pairwise_idxOf_eraseDups (as : List α) :
    as.eraseDups.Pairwise fun a b => as.idxOf a < as.idxOf b := by
  induction as using List.reverseRecOn with
  | nil => simp
  | append_singleton as a ih =>
    have kept {b : α} (hb : b ∈ as.eraseDups) : (as ++ [a]).idxOf b = as.idxOf b :=
      List.idxOf_append_of_mem (List.mem_eraseDups.mp hb)
    have old : as.eraseDups.Pairwise fun b c => (as ++ [a]).idxOf b < (as ++ [a]).idxOf c := by
      refine ih.imp_of_mem fun hb hc earlier => ?_
      rwa [kept hb, kept hc]
    rw [eraseDups_concat]
    split
    · exact old
    · next fresh =>
      refine List.pairwise_append.mpr ⟨old, List.pairwise_singleton _ _, fun b hb c hc => ?_⟩
      obtain rfl := List.mem_singleton.mp hc
      rw [List.contains_iff_mem] at fresh
      have inside := List.idxOf_lt_length_of_mem (List.mem_eraseDups.mp hb)
      rw [kept hb, List.idxOf_append_of_notMem fresh]
      omega

end FirstOccurrences

namespace NamedTable
variable {α : Type} [Named α] {t : NamedTable α}

theorem Coherent.map_name_insert (coherent : t.Coherent) (item : α) :
    (t.insert item).toList.map Named.name =
      if (t.toList.map Named.name).contains (Named.name item) then t.toList.map Named.name
      else t.toList.map Named.name ++ [Named.name item] := by
  cases at_name : t.positions[Named.name item]? with
  | some i =>
    obtain ⟨old, found, same⟩ := coherent.item_of_position at_name
    have listed : t.toList[i]? = some old := by rw [toList, Array.getElem?_toList, found]
    have known : (t.toList.map Named.name)[i]? = some (Named.name item) := by
      rw [List.getElem?_map, listed, Option.map_some, same]
    rw [insert_of_some at_name, if_pos (List.contains_iff_mem.mpr (List.mem_of_getElem? known)),
      toList, Array.toList_setIfInBounds, List.map_set]
    obtain ⟨inside, same⟩ := List.getElem?_eq_some_iff.mp known
    rw [← same]
    exact List.set_getElem_self inside
  | none =>
    have fresh : Named.name item ∉ t.toList.map Named.name := by
      intro known
      obtain ⟨old, hold, same⟩ := List.mem_map.mp known
      obtain ⟨i, found⟩ := List.mem_iff_getElem?.mp hold
      rw [toList, Array.getElem?_toList] at found
      rw [← same, coherent.position_of_item found] at at_name
      cases at_name
    rw [insert_of_none at_name, if_neg (by rwa [List.contains_iff_mem]), toList, toList,
      Array.toList_push, List.map_append]
    rfl

theorem map_name_foldl_insert (items : List α) :
    (items.foldl NamedTable.insert empty).toList.map Named.name =
      (items.map Named.name).eraseDups := by
  induction items using List.reverseRecOn with
  | nil => rfl
  | append_singleton items item ih =>
    have coherent : (items.foldl NamedTable.insert empty : NamedTable α).Coherent :=
      coherent_empty.foldl_insert items
    rw [List.foldl_append, List.foldl_cons, List.foldl_nil, coherent.map_name_insert, ih,
      List.map_append, List.map_singleton, eraseDups_concat]
    simp only [List.contains_iff_mem, List.mem_eraseDups]

end NamedTable

namespace ObjectTable
variable {types : TypeHierarchy}

theorem Coherent.map_name_insert {t : ObjectTable} (coherent : t.Coherent) (o : Object) :
    (t.insert o).objects.map Object.name =
      if (t.objects.map Object.name).contains o.name then t.objects.map Object.name
      else t.objects.map Object.name ++ [o.name] := by
  cases found : t.get? o.name with
  | some old =>
    have known : o.name ∈ t.objects.map Object.name :=
      List.mem_map.mpr ⟨old, coherent.get?_eq_some_iff.mp found⟩
    rw [insert_of_some found, if_pos (List.contains_iff_mem.mpr known)]
  | none =>
    have fresh : o.name ∉ t.objects.map Object.name := by
      intro known
      obtain ⟨old, listed⟩ := List.mem_map.mp known
      rw [coherent.get?_eq_some_iff.mpr listed] at found
      cases found
    rw [insert_of_none found, if_neg (by rwa [List.contains_iff_mem]), List.map_append]
    rfl

theorem map_name_ofList (types : TypeHierarchy) (os : List Object) :
    (ofList types os).objects.map Object.name = (os.map Object.name).eraseDups := by
  induction os using List.reverseRecOn with
  | nil => rfl
  | append_singleton os o ih =>
    have coherent := coherent_ofList types os
    rw [ofList] at ih coherent
    rw [ofList, List.foldl_append, List.foldl_cons, List.foldl_nil, coherent.map_name_insert, ih,
      List.map_append, List.map_singleton, eraseDups_concat]
    simp only [List.contains_iff_mem, List.mem_eraseDups]

theorem getD_foldl_list {ancestors : List String} (nodup : ancestors.Nodup) (o : Object)
    (listings : Std.TreeMap String (List Object)) (type : String) :
    (ancestors.foldl (list o) listings).getD type [] =
      listings.getD type [] ++ if type ∈ ancestors then [o] else [] := by
  induction ancestors generalizing listings with
  | nil => simp
  | cons u ancestors ih =>
    obtain ⟨new, nodup⟩ := List.nodup_cons.mp nodup
    rw [List.foldl_cons, ih nodup, list, Std.TreeMap.getD_insert]
    by_cases same : u = type
    · subst same
      simp [new]
    · simp [same, eq_comm (a := type)]

theorem lookup_ofList (made : types.Made) (os : List Object) (type : String) :
    (ofList types os).lookup type =
      (ofList types os).objects.filter ((ofList types os).satisfies · type) := by
  suffices each : ∀ t : ObjectTable, t.types = types →
      t.lookup type = t.objects.filter (t.satisfies · type) →
      (os.foldl insert t).lookup type =
        (os.foldl insert t).objects.filter ((os.foldl insert t).satisfies · type) from
    each (empty types) rfl (lookup_empty types type)
  induction os with
  | nil => exact fun t _ same => same
  | cons o os ih =>
    intro t htypes same
    refine ih (t.insert o) ((types_insert t o).trans htypes) ?_
    unfold insert
    split
    · exact same
    · have nodup : (t.types.ancestors o.type).Nodup := htypes ▸ made.nodup_ancestors o.type
      have listed := getD_foldl_list nodup o t.listings type
      simp only [lookup, satisfies] at same ⊢
      rw [listed, same, List.filter_append, List.filter_singleton]
      simp only [← TypeHierarchy.isSubtype_iff]
      cases t.types.isSubtype o.type type <;> rfl

/-- Objects are kept, and listed under each type, in the order in which their names are first
declared. -/
theorem pairwise_lookup_ofList (made : types.Made) (os : List Object) (type : String) :
    ((ofList types os).lookup type).Pairwise fun o o' =>
      (os.map Object.name).idxOf o.name < (os.map Object.name).idxOf o'.name := by
  have ordered := pairwise_idxOf_eraseDups (os.map Object.name)
  rw [← map_name_ofList types, List.pairwise_map] at ordered
  rw [lookup_ofList made]
  exact ordered.filter _

theorem nodup_lookup_ofList (made : types.Made) (os : List Object) (type : String) :
    ((ofList types os).lookup type).Nodup := by
  refine (pairwise_lookup_ofList made os type).imp fun {o o'} earlier same => ?_
  rw [same] at earlier
  exact Nat.lt_irrefl _ earlier

end ObjectTable
end TypedPlanning
