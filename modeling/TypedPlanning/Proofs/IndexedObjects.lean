import TypedPlanning.Proofs.Closing
import TypedPlanning.Proofs.Listings
import TypedPlanning.Proofs.Supertypes

/-! A table of objects as an index. It keeps the first object of each name, and lists under every
type what the subtype test finds by walking up. So the tuples that are enumerated for an action are
those that the action accepts. -/

namespace TypedPlanning
namespace ObjectTable

def sameName (o o' : Object) : Bool := o.name == o'.name

theorem objects_foldl_insert (t : ObjectTable) (os : List Object) :
    (os.foldl insert t).objects =
      t.objects ++ (os.filter fun o => (t.get? o.name).isNone).eraseDupsBy sameName := by
  induction os generalizing t with
  | nil => exact (List.append_nil _).symm
  | cons o os ih =>
    rw [List.foldl_cons, ih]
    cases found : t.get? o.name with
    | some old =>
      rw [List.filter_cons_of_neg (by simp [found]), insert_of_some found]
    | none =>
      have others (o' : Object) : ((t.insert o).get? o'.name).isNone =
          (decide (sameName o' o = false) && (t.get? o'.name).isNone) := by
        rw [get?_insert, sameName, BEq.comm]
        cases t.get? o'.name with
        | some old => simp
        | none => by_cases same : o.name = o'.name <;> simp [same]
      have kept : (t.insert o).objects = t.objects ++ [o] := by rw [insert_of_none found]
      rw [List.filter_cons_of_pos (by simp [found]), List.eraseDupsBy_cons, kept,
        List.append_assoc, List.filter_filter]
      simp only [others]
      rfl

theorem objects_ofList (types : TypeHierarchy) (os : List Object) :
    (ofList types os).objects = os.eraseDupsBy sameName := by
  rw [ofList, objects_foldl_insert]
  simp [empty, get?]

/-- The table is an index of some objects. Of those with one name only the first counts. -/
structure Indexes (t : ObjectTable) (os : List Object) : Prop where
  objects : t.objects = os.eraseDupsBy sameName
  lookup : ∀ type, t.lookup type = t.objects.filter (t.satisfies · type)
  nodup : ∀ type, (t.lookup type).Nodup
  get? : ∀ name o, t.get? name = some o ↔ o ∈ t.objects ∧ o.name = name
  first : ∀ name, t.get? name = os.find? (·.name == name)
  /-- What is stepped to are the tuples of objects of the table that the action accepts. -/
  tuples : ∀ (a : Action) arguments, (∃ n, arguments ∈ (Candidates.of t a.parameters).take n) ↔
    (∀ o ∈ arguments, o ∈ t.objects) ∧ ∃ g, a.assign t arguments = .ok g

/-- A table of any objects, over whatever hierarchy comes of requests, is an index of them. -/
theorem indexes_ofList (requests : List TypeHierarchy.Request) (os : List Object) :
    (ofList (.after requests) os).Indexes os := by
  have made := TypeHierarchy.made_after requests
  have coherent := coherent_ofList (.after requests) os
  exact {
    objects := objects_ofList _ os
    lookup := lookup_ofList made os
    nodup := nodup_lookup_ofList made os
    get? := fun name o => coherent.get?_eq_some_iff
    first := get?_ofList _ os
    tuples := fun a arguments => by
      rw [Candidates.exists_mem_take_iff, Action.mem_tuples_iff_assign coherent] }

end ObjectTable
end TypedPlanning
