import TypedPlanning.Proofs.Listings
import TypedPlanning.Proofs.Supertypes
import TypedPlanning.Proofs.Tuples
import Mathlib.Algebra.BigOperators.Ring.List
import Mathlib.Algebra.GroupWithZero.Nat
import Mathlib.Data.List.Lex

/-! An odometer counts. Each wheel stands at an index of its list, and after `n` steps the indices
are the digits of `n`, where the lengths of the lists are the bases and the leftmost digit counts
most. So no index leaves its list, every choice of indices comes once, and they come in
lexicographic order. -/

namespace TypedPlanning

def Within {α : Type} (lists : List (List α)) (is : List ℕ) : Prop :=
  List.Forall₂ (fun i as => i < as.length) is lists

section Digits
variable {α : Type} {lists : List (List α)} {is js : List ℕ}

end Digits

namespace Wheel
variable {α : Type} {w w' : Wheel α} {as : List α}

/-- How many values of the list stand before the one that is shown. -/
def index (w : Wheel α) : ℕ := w.rest.length - w.later.length

/-- The wheel goes over the list, and shows what stands at its index. -/
structure Over (w : Wheel α) (as : List α) : Prop where
  values : w.values = as
  drop_index : as.drop w.index = w.current :: w.later

theorem Over.getElem?_index (along : w.Over as) : as[w.index]? = some w.current := by
  rw [← List.head?_drop, along.drop_index, List.head?_cons]

theorem Over.length_eq (along : w.Over as) : as.length = w.index + 1 + w.later.length := by
  have inside : w.index < as.length := (List.getElem?_eq_some_iff.mp along.getElem?_index).1
  have left := congrArg List.length along.drop_index
  rw [List.length_drop, List.length_cons] at left
  omega

@[simp] theorem index_reset (w : Wheel α) : w.reset.index = 0 := Nat.sub_self _

theorem Over.reset (along : w.Over as) : w.reset.Over as :=
  ⟨along.values, by rw [index_reset, List.drop_zero, ← along.values]; rfl⟩

end Wheel

namespace Odometer
variable {α : Type} {o o' : Odometer α} {lists : List (List α)}

def indices (o : Odometer α) : List ℕ := o.map Wheel.index

def Over (o : Odometer α) (lists : List (List α)) : Prop := List.Forall₂ Wheel.Over o lists

theorem Over.within (along : o.Over lists) : Within lists o.indices := by
  rw [Within, indices, List.forall₂_map_left_iff]
  exact along.imp fun w as along => (List.getElem?_eq_some_iff.mp along.getElem?_index).1

theorem Over.reset (along : o.Over lists) : Over (o.map Wheel.reset) lists :=
  List.forall₂_map_left_iff.mpr (along.imp fun _ _ => Wheel.Over.reset)

end Odometer

namespace Cursor

def after (c : Cursor) : ℕ → Cursor
  | 0 => c
  | n + 1 => (c.after n).next?.2

end Cursor

namespace Candidates
variable {c : Candidates}

theorem count_eq_prod (c : Candidates) : c.count = (c.domains.map List.length).prod := by
  rw [count, List.prod_eq_foldr, List.foldr_map]

theorem isEmpty_iff : c.isEmpty = true ↔ c.tuples = [] := by
  rw [← List.length_eq_zero_iff, length_tuples, count_eq_prod, List.prod_eq_zero_iff, isEmpty,
    List.any_eq_true, List.mem_map]
  simp only [List.isEmpty_iff, List.length_eq_zero_iff]

end Candidates
end TypedPlanning
