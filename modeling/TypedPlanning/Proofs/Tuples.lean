import TypedPlanning.Candidates
import Mathlib.Data.List.Forall2

/-! The tuples that an odometer runs through. From its start it shows the Cartesian product of its
lists, the leftmost place slowest, and a loop over candidate arguments is a loop over that list. -/

namespace TypedPlanning

/-- All ways to take one value from each list, the leftmost list slowest. -/
def product {α : Type} : List (List α) → List (List α)
  | [] => [[]]
  | as :: lists => as.flatMap fun a => (product lists).map (a :: ·)

theorem mem_product {α : Type} {tuple : List α} {lists : List (List α)} :
    tuple ∈ product lists ↔ List.Forall₂ (· ∈ ·) tuple lists := by
  induction lists generalizing tuple with
  | nil => simp [product]
  | cons as lists ih =>
    simp only [product, List.mem_flatMap, List.mem_map, ih, List.forall₂_cons_right_iff]
    constructor
    · rintro ⟨a, ha, rest, hrest, rfl⟩
      exact ⟨a, rest, ha, hrest, rfl⟩
    · rintro ⟨a, rest, ha, hrest, rfl⟩
      exact ⟨a, ha, rest, hrest, rfl⟩

theorem length_product {α : Type} (lists : List (List α)) :
    (product lists).length = lists.foldr (fun as n => as.length * n) 1 := by
  induction lists with
  | nil => rfl
  | cons as lists ih => simp [product, List.length_flatMap, ih]

theorem pairwise_product {α : Type} {R : α → α → Prop} {lists : List (List α)}
    (ordered : ∀ as ∈ lists, as.Pairwise R) : (product lists).Pairwise (List.Lex R) := by
  induction lists with
  | nil => exact List.pairwise_singleton _ _
  | cons as lists ih =>
    obtain ⟨first, rest⟩ := List.forall_mem_cons.mp ordered
    rw [product, List.pairwise_flatMap]
    constructor
    · intro a _
      exact List.pairwise_map.mpr ((ih rest).imp .cons)
    · refine first.imp fun earlier tuple htuple tuple' htuple' => ?_
      obtain ⟨_, -, rfl⟩ := List.mem_map.mp htuple
      obtain ⟨_, -, rfl⟩ := List.mem_map.mp htuple'
      exact .rel earlier

namespace Wheel
variable {α : Type}

def values (w : Wheel α) : List α := w.first :: w.rest

@[simp] theorem values_reset (w : Wheel α) : w.reset.values = w.values := rfl

theorem values_turn {w w' : Wheel α} (turned : w.turn? = some w') : w'.values = w.values := by
  unfold turn? at turned
  split at turned
  · simp at turned
  · obtain rfl := Option.some.inj turned
    rfl

end Wheel

namespace Odometer
variable {α : Type}

/-- The readings that are left, the present one first. -/
def remaining : Odometer α → List (List α)
  | [] => [[]]
  | w :: ws => (remaining ws).map (w.current :: ·) ++
      w.later.flatMap fun a => (product (ws.map Wheel.values)).map (a :: ·)

@[simp] theorem values_map_reset (o : Odometer α) :
    (o.map Wheel.reset).map Wheel.values = o.map Wheel.values := by simp

theorem remaining_reset (o : Odometer α) :
    remaining (o.map Wheel.reset) = product (o.map Wheel.values) := by
  induction o with
  | nil => rfl
  | cons w ws ih =>
    rw [List.map_cons, remaining, ih, values_map_reset]
    simp [product, Wheel.values, Wheel.reset]

theorem values_advance {o o' : Odometer α} (moved : o.advance? = some o') :
    o'.map Wheel.values = o.map Wheel.values := by
  induction o generalizing o' with
  | nil => simp [advance?] at moved
  | cons w ws ih =>
    simp only [advance?] at moved
    split at moved
    · next ws' found =>
      obtain rfl := Option.some.inj moved
      simp [ih found]
    · obtain ⟨w', turned, rfl⟩ := Option.map_eq_some_iff.mp moved
      rw [List.map_cons, List.map_cons, Wheel.values_turn turned, values_map_reset]

/-- The present reading comes first, and after one step the others are left. -/
theorem remaining_eq (o : Odometer α) :
    o.remaining = o.reading :: o.advance?.elim [] remaining := by
  induction o with
  | nil => rfl
  | cons w ws ih =>
    simp only [remaining, advance?, reading, List.map_cons]
    split
    · next ws' found =>
      rw [found] at ih
      simp [ih, remaining, reading, values_advance found]
    · next stuck =>
      rw [stuck] at ih
      simp only [ih, Option.elim_none, List.map_cons, List.map_nil, List.singleton_append]
      unfold Wheel.turn?
      cases w.later with
      | nil => simp [reading]
      | cons a as => simp [remaining, remaining_reset, reading, -List.map_map]

theorem remaining_start (lists : List (List α)) :
    (start? lists).elim [] remaining = product lists := by
  suffices h : (∃ o, start? lists = some o ∧ o.remaining = product lists ∧
      o.map Wheel.values = lists) ∨ (start? lists = none ∧ product lists = []) by
    obtain ⟨o, started, readings, -⟩ | ⟨failed, none⟩ := h
    · simp [started, readings]
    · simp [failed, none]
  induction lists with
  | nil => exact .inl ⟨[], rfl, rfl, rfl⟩
  | cons as lists ih =>
    obtain _ | ⟨a, as⟩ := as
    · exact .inr ⟨rfl, rfl⟩
    · simp only [start?, List.mapM_cons, Wheel.ofList?] at ih ⊢
      obtain ⟨o, started, readings, values⟩ | ⟨failed, none⟩ := ih
      · refine .inl ⟨⟨a, as, a, as⟩ :: o, by simp [started], ?_, by simp [values, Wheel.values]⟩
        simp [remaining, readings, values, product]
      · exact .inr ⟨by simp [failed], by simp [product, none]⟩

end Odometer

namespace Cursor

def remaining (c : Cursor) : List (List Object) := c.elim [] Odometer.remaining

theorem visit_eq_forIn {m : Type → Type} {β : Type} [Monad m]
    (step : List Object → β → m (ForInStep β)) {n : Nat} {c : Cursor}
    (enough : c.remaining.length ≤ n) (b : β) : c.visit step n b = forIn c.remaining b step := by
  induction n generalizing c b with
  | zero =>
    have none_left : c.remaining = [] := List.length_eq_zero_iff.mp (Nat.le_zero.mp enough)
    rw [none_left, visit, List.forIn_nil]
  | succ n ih =>
    obtain _ | o := c
    · rfl
    · have first : remaining (some o) = o.reading :: remaining o.advance? := o.remaining_eq
      rw [first] at enough ⊢
      rw [List.forIn_cons, visit]
      simp only [next?]
      congr 1
      funext r
      cases r with
      | done b => rfl
      | yield b => exact ih (Nat.le_of_succ_le_succ enough) b

theorem take_eq (n : Nat) (c : Cursor) : c.take n = c.remaining.take n := by
  induction n generalizing c with
  | zero => rfl
  | succ n ih =>
    obtain _ | o := c
    · rfl
    · have first : remaining (some o) = o.reading :: remaining o.advance? := o.remaining_eq
      rw [first, List.take_succ_cons, ← ih]
      rfl

end Cursor

namespace Candidates

def tuples (c : Candidates) : List (List Object) := product c.domains

@[simp] theorem length_tuples (c : Candidates) : c.tuples.length = c.count :=
  length_product c.domains

theorem remaining_cursor (c : Candidates) : c.cursor.remaining = c.tuples :=
  Odometer.remaining_start c.domains

theorem exists_mem_take_iff {c : Candidates} {tuple : List Object} :
    (∃ n, tuple ∈ c.take n) ↔ tuple ∈ c.tuples := by
  simp only [take, Cursor.take_eq, remaining_cursor]
  constructor
  · rintro ⟨n, taken⟩
    exact List.mem_of_mem_take taken
  · exact fun there => ⟨c.tuples.length, by rwa [List.take_length]⟩

theorem forIn_eq {m : Type → Type} {β : Type} [Monad m] (c : Candidates) (b : β)
    (step : List Object → β → m (ForInStep β)) : forIn c b step = forIn c.tuples b step := by
  show c.cursor.visit step c.count b = _
  rw [Cursor.visit_eq_forIn step (Nat.le_of_eq (by rw [remaining_cursor, length_tuples])) b,
    remaining_cursor]

theorem mem_tuples_of {objects : ObjectTable} {parameters : List Parameter}
    {arguments : List Object} : arguments ∈ (of objects parameters).tuples ↔
      List.Forall₂ (fun o (p : Parameter) => o ∈ objects.lookup p.type) arguments parameters := by
  rw [tuples, of, mem_product, List.forall₂_map_right_iff]

end Candidates
end TypedPlanning
