import TypedPlanning.Definition.TypedName
import Mathlib.Data.List.Forall2

/-! Lists of typed names, place by place. A dash separates names from their type unless it is itself
a type, which is settled from the left by the dashes right before it. A list can be read if it
consists of words and each separating dash has a name that waits for it and a type behind it; each
name then gets the type behind the nearest dash that follows and separates. Otherwise the first
place where something is wrong is told. -/

namespace TypedPlanning
namespace Definition
namespace TypedName
open Text (Expression)

def wordAt (es : List Expression) (i : ℕ) : Option String := es[i]?.bind Expression.word?

/-- The dash at this place separates names from a type: it is not itself the type behind another
separating dash. -/
def separates (es : List Expression) : ℕ → Bool
  | 0 => wordAt es 0 == some "-"
  | i + 1 => wordAt es (i + 1) == some "-" && !separates es i

/-- The place right behind a separating dash is that of a type. -/
def isType (es : List Expression) : ℕ → Bool
  | 0 => false
  | i + 1 => separates es i

def isName (es : List Expression) (i : ℕ) : Bool := !separates es i && !isType es i

/-- The name at one place waits for the dash at the other, the nearest one that separates. -/
structure Waits (es : List Expression) (i j : ℕ) : Prop where
  name : isName es i = true
  before : i < j
  separator : separates es j = true
  nearest : ∀ k, i < k → k < j → separates es k = false

/-- The type of the name at a place: the word behind the dash that it waits for, and the root type
where no separating dash follows. -/
inductive TypeOf (es : List Expression) (i : ℕ) : String → Prop where
  | behind {j : ℕ} {type : String} :
    Waits es i j → es[j + 1]? = some (.word type) → TypeOf es i type
  | root : (∀ j, i < j → separates es j = false) → TypeOf es i rootType

/-- All names in their order, each with its type. -/
def Lists (es : List Expression) (ns : List TypedName) : Prop :=
  List.Forall₂ (fun i n => es[i]? = some (.word n.name) ∧ TypeOf es i n.type)
    ((List.range es.length).filter (isName es)) ns

/-- There are words only, and each separating dash has a name before it and a type behind it. -/
structure WellSeparated (es : List Expression) : Prop where
  words : ∀ e ∈ es, ∃ w, e = .word w
  named : ∀ j, separates es j = true → ∃ i, Waits es i j
  typed : ∀ j, separates es j = true → ∃ type, es[j + 1]? = some (.word type)

/-- What is wrong at a place, and what is said about it. A list where a type belongs counts for the
dash before it. -/
inductive Fault (es : List Expression) (i : ℕ) : Error → Prop where
  | name {items : List Expression} : es[i]? = some (.list items) → isType es i = false →
    Fault es i (.definition (.unexpected "name" (Expression.list items).text))
  | either {items : List Expression} : separates es i = true → es[i + 1]? = some (.list items) →
    items.head?.any (·.isKeyword "either") = true → Fault es i (.unsupported .eitherTypes)
  | type {items : List Expression} : separates es i = true → es[i + 1]? = some (.list items) →
    items.head?.any (·.isKeyword "either") = false →
    Fault es i (.definition (.unexpected "type name" (Expression.list items).text))
  | noType : separates es i = true → es[i + 1]? = none →
    Fault es i (.definition (.missing "type after `-`"))
  | noName {type : String} : separates es i = true → es[i + 1]? = some (.word type) →
    (∀ j, ¬ Waits es j i) → Fault es i (.definition (.missing s!"names before `- {type}`"))

theorem Fault.transfer {es es' : List Expression} {i i' : ℕ} {e : Error} (fault : Fault es i e)
    (separator : separates es' i' = separates es i) (typed : isType es' i' = isType es i)
    (here : es'[i']? = es[i]?) (behind : es'[i' + 1]? = es[i + 1]?)
    (unawaited : (∀ j, ¬ Waits es j i) → ∀ j, ¬ Waits es' j i') : Fault es' i' e := by
  cases fault with
  | name list untyped => exact .name (here.trans list) (typed.trans untyped)
  | either dash list head => exact .either (separator.trans dash) (behind.trans list) head
  | type dash list head => exact .type (separator.trans dash) (behind.trans list) head
  | noType dash none => exact .noType (separator.trans dash) (behind.trans none)
  | noName dash word none =>
    exact .noName (separator.trans dash) (behind.trans word) (unawaited none)

/-- A word that separates nothing is a name or a type, and nothing is wrong with it. -/
theorem not_fault_of_word {es : List Expression} {i : ℕ} {e : Error}
    (still : separates es i = false) (wordy : ∀ items, es[i]? ≠ some (.list items)) :
    ¬ Fault es i e := by
  intro fault
  cases fault with
  | name list => exact wordy _ list
  | either dash => cases still.symm.trans dash
  | type dash => cases still.symm.trans dash
  | noType dash => cases still.symm.trans dash
  | noName dash => cases still.symm.trans dash

structure FirstFault (es : List Expression) (i : ℕ) (e : Error) : Prop where
  here : Fault es i e
  first : ∀ j < i, ∀ e', ¬ Fault es j e'

section Append
variable {front es : List Expression} {i j : ℕ}

theorem wordAt_append_left (inside : i < front.length) :
    wordAt (front ++ es) i = wordAt front i := by
  rw [wordAt, wordAt, List.getElem?_append_left inside]

theorem getElem?_append_add (front es : List Expression) (i : ℕ) :
    (front ++ es)[front.length + i]? = es[i]? := by
  rw [List.getElem?_append_right (by omega), Nat.add_sub_cancel_left]

theorem wordAt_append_add (front es : List Expression) (i : ℕ) :
    wordAt (front ++ es) (front.length + i) = wordAt es i := by
  rw [wordAt, wordAt, getElem?_append_add]

/-- What a dash is depends on what stands before it, and not on what follows. -/
theorem separates_append_left (inside : i < front.length) :
    separates (front ++ es) i = separates front i := by
  induction i with
  | zero => rw [separates, separates, wordAt_append_left inside]
  | succ i ih =>
    have earlier : i < front.length := by omega
    rw [separates, separates, wordAt_append_left inside, ih earlier]

/-- No type is missing at the end. -/
def Closed (front : List Expression) : Prop := isType front front.length = false

theorem isType_append_left (inside : i ≤ front.length) :
    isType (front ++ es) i = isType front i := by
  cases i with
  | zero => rfl
  | succ i => exact separates_append_left inside

theorem separates_append_add (closed : Closed front) (es : List Expression) (i : ℕ) :
    separates (front ++ es) (front.length + i) = separates es i := by
  induction i with
  | zero =>
    have word : wordAt (front ++ es) front.length = wordAt es 0 := wordAt_append_add front es 0
    cases length : front.length with
    | zero =>
      rw [length] at word
      rw [Nat.add_zero, separates, separates, word]
    | succ n =>
      have inside : n < front.length := by omega
      have before : separates front n = false := by
        rw [Closed, length] at closed
        exact closed
      rw [length] at word
      rw [Nat.add_zero, separates, separates, word, separates_append_left inside, before,
        Bool.not_false, Bool.and_true]
  | succ i ih =>
    have word : wordAt (front ++ es) (front.length + i + 1) = wordAt es (i + 1) :=
      wordAt_append_add front es (i + 1)
    rw [← Nat.add_assoc, separates, separates, word, ih]

theorem isType_append_add (closed : Closed front) (es : List Expression) (i : ℕ) :
    isType (front ++ es) (front.length + i) = isType es i := by
  cases i with
  | zero =>
    rw [Nat.add_zero, isType_append_left (Nat.le_refl _)]
    exact closed
  | succ i => exact separates_append_add closed es i

theorem isName_append_add (closed : Closed front) :
    isName (front ++ es) (front.length + i) = isName es i := by
  rw [isName, isName, separates_append_add closed, isType_append_add closed]

theorem waits_append_add (closed : Closed front) (es : List Expression) (i j : ℕ) :
    Waits (front ++ es) (front.length + i) (front.length + j) ↔ Waits es i j := by
  constructor
  · rintro ⟨name, before, separator, nearest⟩
    rw [isName_append_add closed] at name
    rw [separates_append_add closed] at separator
    refine ⟨name, by omega, separator, fun k after before => ?_⟩
    rw [← separates_append_add closed]
    exact nearest _ (by omega) (by omega)
  · rintro ⟨name, before, separator, nearest⟩
    rw [← isName_append_add closed] at name
    rw [← separates_append_add closed] at separator
    refine ⟨name, by omega, separator, fun k after before => ?_⟩
    obtain ⟨k, rfl⟩ := Nat.exists_eq_add_of_le (show front.length ≤ k by omega)
    rw [separates_append_add closed]
    exact nearest k (by omega) (by omega)

end Append

section Group
variable {names : List String} {type : String} {es : List Expression} {i j : ℕ} {e : Error}

theorem wordAt_names (names : List String) (i : ℕ) :
    wordAt (names.map .word) i = names[i]? := by
  rw [wordAt, List.getElem?_map]
  cases names[i]? <;> rfl

theorem separates_names (plain : ∀ w ∈ names, w ≠ "-") (i : ℕ) :
    separates (names.map .word) i = false := by
  have other : (wordAt (names.map .word) i == some "-") = false := by
    rw [wordAt_names, beq_eq_false_iff_ne]
    intro dash
    exact plain "-" (List.mem_of_getElem? dash) rfl
  cases i with
  | zero => exact other
  | succ i => rw [separates, other, Bool.false_and]

theorem closed_names (plain : ∀ w ∈ names, w ≠ "-") : Closed (names.map Expression.word) := by
  rw [Closed]
  cases (names.map Expression.word).length with
  | zero => rfl
  | succ n => exact separates_names plain n

theorem separates_names_append (plain : ∀ w ∈ names, w ≠ "-") (inside : i < names.length) :
    separates (names.map .word ++ es) i = false := by
  rw [separates_append_left (by rwa [List.length_map]), separates_names plain]

theorem getElem?_names_append (inside : i < names.length) (es : List Expression) :
    ∃ w, (names.map Expression.word ++ es)[i]? = some (.word w) ∧ names[i]? = some w := by
  refine ⟨names[i], ?_, List.getElem?_eq_getElem inside⟩
  rw [List.getElem?_append_left (by rwa [List.length_map]), List.getElem?_map,
    List.getElem?_eq_getElem inside, Option.map_some]

theorem not_fault_names_append (plain : ∀ w ∈ names, w ≠ "-") (inside : i < names.length) :
    ¬ Fault (names.map .word ++ es) i e := by
  refine not_fault_of_word (separates_names_append plain inside) fun items list => ?_
  obtain ⟨w, word, -⟩ := getElem?_names_append inside es
  cases word.symm.trans list

theorem separates_names_add (plain : ∀ w ∈ names, w ≠ "-") (i : ℕ) :
    separates (names.map .word ++ es) (names.length + i) = separates es i := by
  have shifted := separates_append_add (closed_names plain) es i
  rwa [List.length_map] at shifted

theorem getElem?_names_add (names : List String) (es : List Expression) (i : ℕ) :
    (names.map Expression.word ++ es)[names.length + i]? = es[i]? := by
  have shifted := getElem?_append_add (names.map Expression.word) es i
  rwa [List.length_map] at shifted

def group (names : List String) (type : String) : List Expression :=
  names.map .word ++ [.word "-", .word type]

@[simp] theorem length_group (names : List String) (type : String) :
    (group names type).length = names.length + 2 := by
  simp [group]

/-- The only separator is the one between the names and the type, whatever that type is. -/
theorem separates_group (plain : ∀ w ∈ names, w ≠ "-") :
    separates (group names type) i = true ↔ i = names.length := by
  by_cases inside : i < names.length
  · rw [group, separates_names_append plain inside]
    exact iff_of_false Bool.false_ne_true (Nat.ne_of_lt inside)
  · obtain ⟨k, rfl⟩ := Nat.exists_eq_add_of_le (Nat.le_of_not_lt inside)
    rw [group, separates_names_add plain]
    obtain _ | _ | k := k
    · exact iff_of_true rfl rfl
    · simp [separates, wordAt, Expression.word?]
    · simp [separates, wordAt]

theorem closed_group (plain : ∀ w ∈ names, w ≠ "-") : Closed (group names type) := by
  rw [Closed, length_group, ← Bool.not_eq_true]
  intro separator
  have here := (separates_group plain).mp separator
  omega

theorem separates_group_append (plain : ∀ w ∈ names, w ≠ "-") (inside : i < names.length + 2)
    (type : String) (es : List Expression) :
    separates (group names type ++ es) i = true ↔ i = names.length := by
  rw [separates_append_left (by rwa [length_group]), separates_group plain]

theorem isName_group_append (plain : ∀ w ∈ names, w ≠ "-") (inside : i < names.length + 2) :
    isName (group names type ++ es) i = true ↔ i < names.length := by
  have separator := separates_group_append plain inside type es
  rw [isName, Bool.and_eq_true, Bool.not_eq_true', Bool.not_eq_true', ← Bool.not_eq_true,
    ← Bool.not_eq_true, separator]
  cases i with
  | zero =>
    simp only [isType, Bool.false_eq_true, not_false_eq_true, and_true]
    omega
  | succ i =>
    have behind := separates_group_append plain (Nat.lt_of_succ_lt inside) type es
    rw [isType, behind]
    omega

theorem waits_group_append (plain : ∀ w ∈ names, w ≠ "-") (inside : i < names.length) :
    Waits (group names type ++ es) i names.length := by
  have within : i < names.length + 2 := by omega
  refine ⟨(isName_group_append plain within).mpr inside, inside, ?_, fun k after before => ?_⟩
  · exact (separates_group_append plain (by omega) type es).mpr rfl
  · rw [← Bool.not_eq_true, separates_group_append plain (by omega)]
    omega

theorem le_of_waits_group_append (plain : ∀ w ∈ names, w ≠ "-")
    (waits : Waits (group names type ++ es) i j) (behind : names.length + 2 ≤ j) :
    names.length + 2 ≤ i := by
  by_contra before
  have inside : i < names.length := (isName_group_append plain (by omega)).mp waits.name
  have none_between := waits.nearest names.length inside (by omega)
  have separator := (separates_group_append plain (by omega) type es).mpr rfl
  cases none_between.symm.trans separator

theorem getElem?_group_dash (names : List String) (type : String) (es : List Expression) :
    (group names type ++ es)[names.length]? = some (.word "-") := by
  rw [group, List.append_assoc]
  exact getElem?_names_add names _ 0

theorem getElem?_group_type (names : List String) (type : String) (es : List Expression) :
    (group names type ++ es)[names.length + 1]? = some (.word type) := by
  rw [group, List.append_assoc]
  exact getElem?_names_add names _ 1

theorem not_fault_group_append (plain : ∀ w ∈ names, w ≠ "-") (some_name : names ≠ [])
    (inside : i < names.length + 2) : ¬ Fault (group names type ++ es) i e := by
  have only := separates_group_append plain inside type es
  have behind := getElem?_group_type names type es
  by_cases dash : i = names.length
  · subst dash
    have first : 0 < names.length := List.length_pos_of_ne_nil some_name
    intro fault
    cases fault with
    | name list => cases (getElem?_group_dash names type es).symm.trans list
    | either _ list => cases behind.symm.trans list
    | type _ list => cases behind.symm.trans list
    | noType _ none_behind => cases behind.symm.trans none_behind
    | noName _ _ unawaited => exact unawaited 0 (waits_group_append plain first)
  · refine not_fault_of_word (Bool.eq_false_iff.mpr (mt only.mp dash)) fun items list => ?_
    obtain before | rfl : i < names.length ∨ i = names.length + 1 := by omega
    · obtain ⟨w, word, -⟩ := getElem?_names_append before (.word "-" :: .word type :: es)
      rw [group, List.append_assoc] at list
      cases word.symm.trans list
    · cases behind.symm.trans list

theorem fault_group_append_add (plain : ∀ w ∈ names, w ≠ "-") :
    Fault (group names type ++ es) (names.length + 2 + i) e ↔ Fault es i e := by
  have closed : Closed (group names type) := closed_group plain
  have separator := separates_append_add closed es i
  have typed := isType_append_add closed es i
  have here := getElem?_append_add (group names type) es i
  have behind := getElem?_append_add (group names type) es (i + 1)
  have waits (j : ℕ) := waits_append_add closed es j i
  have unawaited : (∀ j, ¬ Waits (group names type ++ es) j (names.length + 2 + i)) ↔
      ∀ j, ¬ Waits es j i := by
    rw [length_group] at waits
    constructor
    · intro none j awaited
      exact none _ ((waits j).mpr awaited)
    · intro none j awaited
      obtain ⟨j, rfl⟩ :=
        Nat.exists_eq_add_of_le (le_of_waits_group_append plain awaited (by omega))
      exact none j ((waits j).mp awaited)
  rw [length_group] at separator typed here behind
  rw [← Nat.add_assoc] at behind
  constructor
  · intro fault
    exact fault.transfer separator.symm typed.symm here.symm behind.symm unawaited.mp
  · intro fault
    exact fault.transfer separator typed here behind unawaited.mpr

theorem TypeOf.group_append (plain : ∀ w ∈ names, w ≠ "-") {type' : String}
    (typed : TypeOf es i type') :
    TypeOf (group names type ++ es) (names.length + 2 + i) type' := by
  have closed : Closed (group names type) := closed_group plain
  rw [← length_group names type]
  cases typed with
  | behind waits word =>
    refine .behind ((waits_append_add closed es _ _).mpr waits) ?_
    rw [Nat.add_assoc, getElem?_append_add]
    exact word
  | root none =>
    refine .root fun j after => ?_
    obtain ⟨j, rfl⟩ := Nat.exists_eq_add_of_le (show (group names type).length ≤ j by omega)
    rw [separates_append_add closed]
    exact none j (by omega)

theorem forall₂_range_names
    (each : ∀ i w, names[i]? = some w → es[i]? = some (.word w) ∧ TypeOf es i type) :
    List.Forall₂ (fun i (n : TypedName) => es[i]? = some (.word n.name) ∧ TypeOf es i n.type)
      (List.range names.length) (names.map (⟨·, type⟩)) := by
  rw [List.forall₂_map_right_iff, List.forall₂_iff_get]
  refine ⟨List.length_range, fun i _ inside => ?_⟩
  have here := each i names[i] (List.getElem?_eq_getElem inside)
  simpa using here

theorem lists_names (plain : ∀ w ∈ names, w ≠ "-") :
    Lists (names.map .word) (names.map (⟨·, rootType⟩)) := by
  have all_names : (List.range names.length).filter (isName (names.map .word)) =
      List.range names.length := by
    rw [List.filter_eq_self]
    intro i _
    rw [isName, separates_names plain]
    cases i with
    | zero => rfl
    | succ i => rw [isType, separates_names plain]; rfl
  rw [Lists, List.length_map, all_names]
  refine forall₂_range_names fun i w word => ⟨?_, .root fun j _ => separates_names plain j⟩
  rw [List.getElem?_map, word, Option.map_some]

theorem lists_group_append (plain : ∀ w ∈ names, w ≠ "-") {ns : List TypedName}
    (lists : Lists es ns) : Lists (group names type ++ es) (names.map (⟨·, type⟩) ++ ns) := by
  have own : (List.range (names.length + 2)).filter (isName (group names type ++ es)) =
      List.range names.length := by
    have waiting : (List.range names.length).filter (isName (group names type ++ es)) =
        List.range names.length := by
      rw [List.filter_eq_self]
      intro i inside
      have before : i < names.length := List.mem_range.mp inside
      exact (isName_group_append plain (by omega)).mpr before
    have dash : isName (group names type ++ es) names.length = false := by
      rw [← Bool.not_eq_true, isName_group_append plain (by omega)]
      omega
    have typed : isName (group names type ++ es) (names.length + 1) = false := by
      rw [← Bool.not_eq_true, isName_group_append plain (by omega)]
      omega
    rw [List.range_succ, List.range_succ, List.filter_append, List.filter_append, waiting]
    simp [dash, typed]
  have others (i : ℕ) : isName (group names type ++ es) (names.length + 2 + i) = isName es i := by
    rw [← length_group names type, isName_append_add (closed_group plain)]
  rw [Lists, List.length_append, length_group, List.range_add, List.filter_append, own,
    List.filter_map, show isName _ ∘ _ = isName es from funext others]
  refine List.rel_append (forall₂_range_names fun i w word => ?_) ?_
  · have inside : i < names.length := (List.getElem?_eq_some_iff.mp word).1
    refine ⟨?_, .behind (waits_group_append plain inside) (getElem?_group_type names type es)⟩
    obtain ⟨w', here, same⟩ := getElem?_names_append inside (.word "-" :: .word type :: es)
    obtain rfl := Option.some.inj (same.symm.trans word)
    rw [group, List.append_assoc]
    exact here
  · rw [List.forall₂_map_left_iff]
    refine lists.imp fun i n listed => ⟨?_, listed.2.group_append plain⟩
    rw [← length_group names type, getElem?_append_add]
    exact listed.1

end Group

/-- Reading has come to its end: without a fault all names are listed, and otherwise the first fault
is told. -/
inductive Settled (es : List Expression) : Except Error (List TypedName) → Prop where
  | ok {ns : List TypedName} : (∀ i e, ¬ Fault es i e) → Lists es ns → Settled es (.ok ns)
  | error {i : ℕ} {e : Error} : FirstFault es i e → Settled es (.error e)

section Reading
variable {names : List String} {type : String} {es : List Expression} {i j : ℕ} {e e' : Error}

theorem not_fault_names (plain : ∀ w ∈ names, w ≠ "-") : ¬ Fault (names.map .word) i e := by
  refine not_fault_of_word (separates_names plain i) fun items list => ?_
  rw [List.getElem?_map, Option.map_eq_some_iff] at list
  obtain ⟨w, -, same⟩ := list
  cases same

theorem separates_names_dash (plain : ∀ w ∈ names, w ≠ "-") (es : List Expression) :
    separates (names.map .word ++ .word "-" :: es) names.length = true :=
  separates_names_add plain 0

/-- Names that wait come first, and whatever is wrong behind them is the first fault of all. -/
theorem firstFault_names_append (plain : ∀ w ∈ names, w ≠ "-")
    (fault : Fault (names.map .word ++ es) names.length e) :
    FirstFault (names.map .word ++ es) names.length e :=
  ⟨fault, fun _ before _ => not_fault_names_append plain before⟩

theorem Settled.group_append (plain : ∀ w ∈ names, w ≠ "-") (some_name : names ≠ [])
    {r : Except Error (List TypedName)} (settled : Settled es r) :
    Settled (group names type ++ es) (do return names.map (⟨·, type⟩) ++ (← r)) := by
  cases settled with
  | ok faultless lists =>
    refine .ok (fun i e fault => ?_) (lists_group_append plain lists)
    by_cases inside : i < names.length + 2
    · exact not_fault_group_append plain some_name inside fault
    · obtain ⟨i, rfl⟩ := Nat.exists_eq_add_of_le (Nat.le_of_not_lt inside)
      exact faultless i e ((fault_group_append_add plain).mp fault)
  | error first =>
    refine .error ⟨(fault_group_append_add plain).mpr first.here, fun j before e fault => ?_⟩
    by_cases inside : j < names.length + 2
    · exact not_fault_group_append plain some_name inside fault
    · obtain ⟨j, rfl⟩ := Nat.exists_eq_add_of_le (Nat.le_of_not_lt inside)
      exact first.first j (by omega) e ((fault_group_append_add plain).mp fault)

/-- The names that wait stand directly before what is still to be read. -/
theorem settled_readAfter (waiting : List String) (es : List Expression)
    (plain : ∀ w ∈ waiting, w ≠ "-") :
    Settled (waiting.map .word ++ es) (readAfter waiting es) := by
  induction waiting, es using readAfter.induct with
  | case1 waiting =>
    rw [readAfter, List.append_nil]
    exact .ok (fun i e => not_fault_names plain) (lists_names plain)
  | case2 waiting type es none =>
    obtain rfl := List.isEmpty_iff.mp none
    have unawaited (j : ℕ) : ¬ Waits (.word "-" :: .word type :: es) j 0 :=
      fun waits => Nat.not_lt_zero j waits.before
    rw [readAfter]
    exact .error (firstFault_names_append plain (.noName rfl rfl unawaited))
  | case3 waiting type es some_name ih =>
    have grouped :
        waiting.map .word ++ .word "-" :: .word type :: es = group waiting type ++ es := by
      simp [group]
    rw [readAfter, if_pos rfl, if_neg some_name, grouped]
    rw [List.isEmpty_iff] at some_name
    exact (ih (by simp)).group_append plain some_name
  | case4 waiting types es head =>
    rw [readAfter, if_pos rfl, if_pos head]
    have behind := getElem?_names_add waiting (.word "-" :: .list types :: es) 1
    exact .error (firstFault_names_append plain
      (.either (separates_names_dash plain _) behind head))
  | case5 waiting types es head =>
    rw [readAfter, if_pos rfl, if_neg head]
    have behind := getElem?_names_add waiting (.word "-" :: .list types :: es) 1
    exact .error (firstFault_names_append plain
      (.type (separates_names_dash plain _) behind (Bool.not_eq_true _ ▸ head)))
  | case6 waiting =>
    rw [readAfter.eq_def]
    have behind := getElem?_names_add waiting [.word "-"] 1
    exact .error (firstFault_names_append plain (.noType (separates_names_dash plain _) behind))
  | case7 waiting w es other ih =>
    have longer : waiting.map .word ++ .word w :: es = (waiting ++ [w]).map .word ++ es := by
      simp
    rw [readAfter.eq_def]
    dsimp only
    rw [if_neg other, longer]
    refine ih fun w' listed => ?_
    obtain earlier | last := List.mem_append.mp listed
    · exact plain w' earlier
    · rw [List.mem_singleton.mp last]
      exact other
  | case8 waiting items es =>
    rw [readAfter.eq_def]
    have here := getElem?_names_add waiting (.list items :: es) 0
    have untyped : isType (waiting.map .word ++ .list items :: es) waiting.length = false := by
      have closed := closed_names plain
      rw [Closed, List.length_map] at closed
      rw [isType_append_left (Nat.le_of_eq (List.length_map _).symm), closed]
    exact .error (firstFault_names_append plain (.name here untyped))

end Reading

section Unique
variable {es : List Expression} {i j j' : ℕ} {e e' : Error} {type type' : String}

theorem Waits.unique (waits : Waits es i j) (waits' : Waits es i j') : j' = j := by
  obtain before | same | before := Nat.lt_trichotomy j' j
  · cases (waits.nearest j' waits'.before before).symm.trans waits'.separator
  · exact same
  · cases (waits'.nearest j waits.before before).symm.trans waits.separator

theorem TypeOf.unique (typed : TypeOf es i type) (typed' : TypeOf es i type') : type' = type := by
  cases typed with
  | behind waits word =>
    cases typed' with
    | behind waits' word' =>
      obtain rfl := waits.unique waits'
      cases word.symm.trans word'
      rfl
    | root none => cases (none _ waits.before).symm.trans waits.separator
  | root none =>
    cases typed' with
    | behind waits' => cases (none _ waits'.before).symm.trans waits'.separator
    | root => rfl

theorem Lists.unique {ns ns' : List TypedName} (lists : Lists es ns) (lists' : Lists es ns') :
    ns' = ns := by
  refine List.right_unique_forall₂' (fun i n n' here here' => ?_) lists' lists
  obtain ⟨name, type⟩ := n
  obtain ⟨name', type'⟩ := n'
  obtain ⟨word, typed⟩ := here
  obtain ⟨word', typed'⟩ := here'
  obtain rfl : type = type' := typed'.unique typed
  cases word.symm.trans word'
  rfl

theorem separates_of_list {items : List Expression} (list : es[i]? = some (.list items)) :
    separates es i = false := by
  have wordless : wordAt es i = none := by
    rw [wordAt, list]
    rfl
  cases i with
  | zero => rw [separates, wordless]; rfl
  | succ i => rw [separates, wordless]; rfl

/-- What is said about a place depends on the expression there and on the one behind it. -/
theorem Fault.unique (fault : Fault es i e) (fault' : Fault es i e') : e' = e := by
  have still {items : List Expression} (list : es[i]? = some (.list items))
      (dash : separates es i = true) : False := by
    cases (separates_of_list list).symm.trans dash
  have one {a b : Expression} {j : ℕ} (ha : es[j]? = some a) (hb : es[j]? = some b) : a = b :=
    Option.some.inj (ha.symm.trans hb)
  cases fault with
  | name list =>
    cases fault' with
    | name list' =>
      obtain rfl := Expression.list.inj (one list list')
      rfl
    | either dash | type dash | noType dash | noName dash => exact (still list dash).elim
  | either dash list head =>
    cases fault' with
    | name here => exact (still here dash).elim
    | either => rfl
    | type _ list' head' =>
      obtain rfl := Expression.list.inj (one list list')
      cases head.symm.trans head'
    | noType _ none => cases list.symm.trans none
    | noName _ word => cases one list word
  | type dash list head =>
    cases fault' with
    | name here => exact (still here dash).elim
    | either _ list' head' =>
      obtain rfl := Expression.list.inj (one list list')
      cases head.symm.trans head'
    | type _ list' =>
      obtain rfl := Expression.list.inj (one list list')
      rfl
    | noType _ none => cases list.symm.trans none
    | noName _ word => cases one list word
  | noType dash none =>
    cases fault' with
    | name here => exact (still here dash).elim
    | either _ behind | type _ behind | noName _ behind => cases none.symm.trans behind
    | noType => rfl
  | noName dash word =>
    cases fault' with
    | name here => exact (still here dash).elim
    | either _ list | type _ list => cases one word list
    | noType _ none => cases word.symm.trans none
    | noName _ word' =>
      obtain rfl := Expression.word.inj (one word word')
      rfl

theorem FirstFault.unique (first : FirstFault es i e) (first' : FirstFault es j e') : e' = e := by
  obtain before | rfl | before := Nat.lt_trichotomy i j
  · exact absurd first.here (first'.first i before e)
  · exact first.here.unique first'.here
  · exact absurd first'.here (first.first j before e')

theorem Settled.eq_ok_iff {r : Except Error (List TypedName)} (settled : Settled es r)
    {ns : List TypedName} : r = .ok ns ↔ (∀ i e, ¬ Fault es i e) ∧ Lists es ns := by
  cases settled with
  | ok faultless lists =>
    constructor
    · intro same
      obtain rfl := Except.ok.inj same
      exact ⟨faultless, lists⟩
    · rintro ⟨-, lists'⟩
      rw [lists.unique lists']
  | error first =>
    constructor
    · intro same
      cases same
    · rintro ⟨faultless, -⟩
      exact absurd first.here (faultless _ _)

theorem Settled.eq_error_iff {r : Except Error (List TypedName)} (settled : Settled es r) :
    r = .error e ↔ ∃ i, FirstFault es i e := by
  cases settled with
  | ok faultless =>
    constructor
    · intro same
      cases same
    · rintro ⟨i, first⟩
      exact absurd first.here (faultless i e)
  | error first =>
    constructor
    · intro same
      obtain rfl := Except.error.inj same
      exact ⟨_, first⟩
    · rintro ⟨j, first'⟩
      rw [first.unique first']

end Unique

theorem wellSeparated_iff {es : List Expression} :
    WellSeparated es ↔ ∀ i e, ¬ Fault es i e := by
  constructor
  · intro well i e fault
    have wordy {j : ℕ} {items : List Expression} : es[j]? ≠ some (.list items) := by
      intro list
      obtain ⟨w, same⟩ := well.words _ (List.mem_of_getElem? list)
      cases same
    cases fault with
    | name list => exact wordy list
    | either dash list => exact wordy list
    | type dash list => exact wordy list
    | noType dash none =>
      obtain ⟨type, word⟩ := well.typed i dash
      cases none.symm.trans word
    | noName dash word unawaited =>
      obtain ⟨j, waits⟩ := well.named i dash
      exact unawaited j waits
  · intro faultless
    have typed (j : ℕ) (dash : separates es j = true) :
        ∃ type, es[j + 1]? = some (.word type) := by
      cases behind : es[j + 1]? with
      | none => exact absurd (.noType dash behind) (faultless j _)
      | some e =>
        cases e with
        | word type => exact ⟨type, rfl⟩
        | list items =>
          cases head : items.head?.any (·.isKeyword "either") with
          | false => exact absurd (.type dash behind head) (faultless j _)
          | true => exact absurd (.either dash behind head) (faultless j _)
    refine ⟨fun e listed => ?_, fun j dash => ?_, typed⟩
    · obtain ⟨i, here⟩ := List.mem_iff_getElem?.mp listed
      cases e with
      | word w => exact ⟨w, rfl⟩
      | list items =>
        cases role : isType es i with
        | false => exact absurd (.name here role) (faultless i _)
        | true =>
          cases i with
          | zero => cases role
          | succ i =>
            obtain ⟨type, word⟩ := typed i role
            cases word.symm.trans here
    · obtain ⟨type, word⟩ := typed j dash
      by_contra unawaited
      exact faultless j _ (.noName dash word (not_exists.mp unawaited))

/-- A list of typed names is read exactly if it consists of words and each separating dash has a
name that waits for it and a type behind it. What is read are all names in their order, each with
the type behind the nearest separating dash that follows, or of the root type. Otherwise what is
wrong in the first place is told, and alternatives of types are told to be unsupported exactly if
that place is a dash before them. -/
theorem readAll_iff_wellSeparated (es : List Expression) :
    ((∃ ns, readAll es = .ok ns) ↔ WellSeparated es) ∧
    (∀ ns, readAll es = .ok ns ↔ WellSeparated es ∧ Lists es ns) ∧
    (∀ e, readAll es = .error e ↔ ∃ i, FirstFault es i e) ∧
    (readAll es = .error (.unsupported .eitherTypes) ↔
      ∃ i items, separates es i = true ∧ es[i + 1]? = some (.list items) ∧
        items.head?.any (·.isKeyword "either") = true ∧ ∀ j < i, ∀ e, ¬ Fault es j e) := by
  have settled : Settled es (readAll es) := settled_readAfter [] es (by simp)
  have names (ns : List TypedName) :
      readAll es = .ok ns ↔ WellSeparated es ∧ Lists es ns := by
    rw [wellSeparated_iff, settled.eq_ok_iff]
  have errors (e : Error) : readAll es = .error e ↔ ∃ i, FirstFault es i e :=
    settled.eq_error_iff
  refine ⟨?_, names, errors, ?_⟩
  · constructor
    · rintro ⟨ns, read⟩
      exact ((names ns).mp read).1
    · intro well
      cases result : readAll es with
      | ok ns => exact ⟨ns, rfl⟩
      | error e =>
        obtain ⟨i, first⟩ := (errors e).mp result
        exact absurd first.here (wellSeparated_iff.mp well i e)
  · rw [errors]
    constructor
    · rintro ⟨i, here, first⟩
      cases here with
      | either dash list head => exact ⟨i, _, dash, list, head, first⟩
    · rintro ⟨i, items, dash, list, head, first⟩
      exact ⟨i, .either dash list head, first⟩

/-- Of two dashes in a row the second is the type that the first gives. -/
example : readAll [.word "a", .word "-", .word "-", .word "b"] =
    .ok [⟨"a", "-"⟩, ⟨"b", "object"⟩] := rfl

end TypedName
end Definition
end TypedPlanning
