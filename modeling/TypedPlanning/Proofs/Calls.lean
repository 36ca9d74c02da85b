import TypedPlanning.Fact
import TypedPlanning.Text.Plan
import Mathlib.Data.List.TakeWhile
import Mathlib.Data.Option.Basic

/-! A call is read from its layouts and from no other text. So reading gives back the names that a
call was written with, and every call that is read, alone or in a plan, consists of names. -/

namespace TypedPlanning
namespace Text

def EndsName (rest : List Char) : Prop := ∀ c ∈ rest.head?, isNameChar c = false

theorem isName_iff {s : String} : isName s = true ↔
    ∃ c cs, s.toList = c :: cs ∧ c.isAlpha = true ∧ ∀ x ∈ cs, isNameChar x = true := by
  unfold isName takeName
  cases s.toList with
  | nil => simp
  | cons c cs =>
    by_cases letter : c.isAlpha = true
    · simp only [letter, if_true, List.isEmpty_iff, List.dropWhile_eq_nil_iff, List.cons.injEq]
      constructor
      · exact fun chars => ⟨c, cs, ⟨rfl, rfl⟩, letter, chars⟩
      · rintro ⟨_, _, ⟨rfl, rfl⟩, -, chars⟩
        exact chars
    · simp only [letter]
      constructor
      · intro impossible
        simp at impossible
      · rintro ⟨_, _, same, letter', -⟩
        exact absurd ((List.cons.inj same).1 ▸ letter') letter

theorem takeName_append {s : String} (named : isName s = true) {rest : List Char}
    (ends : EndsName rest) : takeName (s.toList ++ rest) = some (s, rest) := by
  obtain ⟨c, cs, spelled, letter, chars⟩ := isName_iff.mp named
  rw [spelled, List.cons_append, takeName, if_pos letter, takeWhile_append_of_ends chars ends,
    dropWhile_append_of_ends chars ends, ← spelled, String.ofList_toList]

theorem eq_of_takeName {cs rest : List Char} {name : String}
    (found : takeName cs = some (name, rest)) : cs = name.toList ++ rest := by
  cases cs with
  | nil => simp [takeName] at found
  | cons c cs =>
    simp only [takeName] at found
    split at found
    · obtain ⟨rfl, rfl⟩ := Prod.mk.inj (Option.some.inj found)
      rw [String.toList_ofList, List.cons_append, List.takeWhile_append_dropWhile]
    · simp at found

theorem isName_of_takeName {cs rest : List Char} {name : String}
    (found : takeName cs = some (name, rest)) : isName name = true := by
  cases cs with
  | nil => simp [takeName] at found
  | cons c cs =>
    simp only [takeName] at found
    split at found
    · next letter =>
      simp only [Option.some.injEq, Prod.mk.injEq] at found
      obtain ⟨rfl, -⟩ := found
      refine isName_iff.mpr ⟨c, cs.takeWhile isNameChar, String.toList_ofList, letter, ?_⟩
      exact fun x hx => List.all_eq_true.mp List.all_takeWhile x hx
    · simp at found

theorem isSpace_false_of_isAlpha {c : Char} (letter : c.isAlpha = true) : isSpace c = false := by
  refine Bool.eq_false_iff.mpr fun space => ?_
  simp only [isSpace, Bool.or_eq_true, beq_iff_eq] at space
  obtain ((rfl | rfl) | rfl) | rfl := space <;> revert letter <;> decide

theorem isNameChar_false_of_isSpace {c : Char} (space : isSpace c = true) :
    isNameChar c = false := by
  simp only [isSpace, Bool.or_eq_true, beq_iff_eq] at space
  obtain ((rfl | rfl) | rfl) | rfl := space <;> decide

theorem dropSpaces_append_name {gap : List Char} (spaces : ∀ c ∈ gap, isSpace c = true) {s : String}
    (named : isName s = true) (rest : List Char) :
    dropSpaces (gap ++ (s.toList ++ rest)) = s.toList ++ rest := by
  obtain ⟨c, cs, spelled, letter, -⟩ := isName_iff.mp named
  rw [dropSpaces, List.dropWhile_append_of_pos spaces, spelled, List.cons_append,
    List.dropWhile_cons, isSpace_false_of_isAlpha letter]
  rfl

def OnlySpaces (space : Char → Bool) (gap : List Char) : Prop := ∀ c ∈ gap, space c = true

theorem onlySpaces_nil {space : Char → Bool} : OnlySpaces space [] := List.forall_mem_nil _

theorem EndsName.append {gap : List Char} (spaces : OnlySpaces isSpace gap) {rest : List Char}
    (ends : EndsName rest) : EndsName (gap ++ rest) := by
  cases gap with
  | nil => exact ends
  | cons c gap =>
    intro d hd
    obtain rfl := Option.mem_some_iff.mp hd
    exact isNameChar_false_of_isSpace (spaces c List.mem_cons_self)

theorem dropSpaces_append {gap : List Char} (spaces : OnlySpaces isSpace gap) (rest : List Char) :
    dropSpaces (gap ++ rest) = dropSpaces rest :=
  List.dropWhile_append_of_pos spaces

theorem exists_spaces_append (cs : List Char) :
    ∃ gap, OnlySpaces isSpace gap ∧ cs = gap ++ dropSpaces cs :=
  ⟨cs.takeWhile isSpace, fun _ hc => List.all_eq_true.mp List.all_takeWhile _ hc,
    List.takeWhile_append_dropWhile.symm⟩

theorem dropSpaces_eq_nil {gap : List Char} (spaces : OnlySpaces isSpace gap) :
    dropSpaces gap = [] := List.dropWhile_eq_nil_iff.mpr spaces

namespace Call

def Readable (c : Call) : Prop := isName c.name = true ∧ ∀ a ∈ c.arguments, isName a = true

/-- Names with a gap of at least one space before each. -/
inductive Spread (space : Char → Bool) : List String → List Char → Prop
  | nil : Spread space [] []
  | cons {gap cs : List Char} {name : String} {names : List String} :
    gap ≠ [] → OnlySpaces space gap → Spread space names cs →
    Spread space (name :: names) (gap ++ (name.toList ++ cs))

/-- A text of a call: its names with spaces between and around them, perhaps in one pair of
brackets. -/
inductive LaidOut (space : Char → Bool) (c : Call) : List Char → Prop
  | bare {before spread after : List Char} : OnlySpaces space before →
    Spread space c.arguments spread → OnlySpaces space after →
    LaidOut space c (before ++ (c.name.toList ++ (spread ++ after)))
  | bracketed {before opening spread closing after : List Char} : OnlySpaces space before →
    OnlySpaces space opening → Spread space c.arguments spread → OnlySpaces space closing →
    OnlySpaces space after →
    LaidOut space c
      (before ++ '(' :: (opening ++ (c.name.toList ++ (spread ++ (closing ++ ')' :: after)))))

theorem exists_spread_spaced (name : String) (arguments : List String) :
    ∃ cs, (spaced name arguments).toList = name.toList ++ cs ∧ Spread isSpace arguments cs := by
  induction arguments generalizing name with
  | nil => exact ⟨[], by simp [spaced], .nil⟩
  | cons a arguments ih =>
    obtain ⟨cs, same, spread⟩ := ih a
    refine ⟨[' '] ++ (a.toList ++ cs), ?_, .cons (List.cons_ne_nil _ _) ?_ spread⟩
    · rw [spaced] at same ⊢
      rw [String.intercalate_cons_cons, String.toList_append, same]
      simp
    · exact List.forall_mem_singleton.mpr rfl

theorem laidOut_spaced (c : Call) : c.LaidOut isSpace (spaced c.name c.arguments).toList := by
  obtain ⟨cs, same, spread⟩ := exists_spread_spaced c.name c.arguments
  have laid : c.LaidOut isSpace ([] ++ (c.name.toList ++ (cs ++ []))) :=
    .bare onlySpaces_nil spread onlySpaces_nil
  rwa [List.nil_append, List.append_nil, ← same] at laid

theorem isName_of_mem_takeArguments (cs : List Char) :
    ∀ a ∈ (takeArguments cs).1, isName a = true := by
  fun_induction takeArguments cs with
  | case1 cs _ name rest found _ names rest' eq ih =>
    rw [eq] at ih
    exact List.forall_mem_cons.mpr ⟨isName_of_takeName found, ih⟩
  | case2 => simp
  | case3 => simp

theorem readable_of_takeBare {cs rest : List Char} {call : Call}
    (found : takeBare cs = some (call, rest)) : call.Readable := by
  simp only [takeBare, Option.bind_eq_bind, Option.pure_def, Option.bind_eq_some_iff,
    Option.some.injEq, Prod.mk.injEq, Prod.exists] at found
  obtain ⟨name, middle, taken, rfl, -⟩ := found
  exact ⟨isName_of_takeName taken, isName_of_mem_takeArguments middle⟩

theorem readable_of_takeBracketed {cs rest : List Char} {call : Call}
    (found : takeBracketed cs = some (call, rest)) : call.Readable := by
  unfold takeBracketed at found
  split at found
  · simp only [Option.bind_eq_bind, Option.pure_def, Option.bind_eq_some_iff, Option.some.injEq,
      Prod.mk.injEq, Prod.exists] at found
    obtain ⟨c, middle, taken, after, closed, rfl, -⟩ := found
    exact readable_of_takeBare taken
  · simp at found

theorem readable_of_mem_takeAll (cs : List Char) : ∀ c ∈ (takeAll cs).1, c.Readable := by
  fun_induction takeAll cs with
  | case1 cs call rest found _ calls rest' eq ih =>
    rw [eq] at ih
    exact List.forall_mem_cons.mpr ⟨readable_of_takeBracketed found, ih⟩
  | case2 => simp

theorem readable_of_readPlan {text : String} {calls : List Call}
    (read : readPlan text = .ok calls) : ∀ c ∈ calls, c.Readable := by
  have wrapped {cs rest : List Char} {calls : List Call}
      (found : takeWrapped cs = some (calls, rest)) : ∀ c ∈ calls, c.Readable := by
    unfold takeWrapped at found
    split at found
    · next cs =>
      obtain ⟨_, -, same⟩ := Option.map_eq_some_iff.mp found
      obtain rfl := (Prod.mk.inj same).1
      exact readable_of_mem_takeAll _
    · simp at found
  simp only [readPlan] at read
  split at read
  · obtain rfl := Except.ok.inj read
    cases found : takeWrapped (skipFiller text.toList) with
    | none => exact readable_of_mem_takeAll _
    | some result => exact wrapped found
  · cases read

theorem takeArguments_step {cs rest : List Char} {name : String}
    (space : cs.head?.any isSpace = true) (found : takeName (dropSpaces cs) = some (name, rest)) :
    takeArguments cs = (name :: (takeArguments rest).1, (takeArguments rest).2) := by
  rw [takeArguments, if_pos space]
  split
  · next taken =>
    obtain ⟨rfl, rfl⟩ := Prod.mk.inj (Option.some.inj (taken.symm.trans found))
    rfl
  · next stuck => simp [stuck] at found

theorem takeArguments_stop {cs : List Char} (stops : takeName (dropSpaces cs) = none) :
    takeArguments cs = ([], cs) := by
  rw [takeArguments]
  split
  · split
    · next found => simp [stops] at found
    · rfl
  · rfl

theorem Spread.endsName {names : List String} {cs : List Char} (spread : Spread isSpace names cs)
    {rest : List Char} (ends : EndsName rest) : EndsName (cs ++ rest) := by
  cases spread with
  | nil => exact ends
  | @cons gap cs name names solid spaces _ =>
    obtain ⟨c, gap, rfl⟩ := List.exists_cons_of_ne_nil solid
    intro d hd
    obtain rfl := Option.mem_some_iff.mp hd
    exact isNameChar_false_of_isSpace (spaces c List.mem_cons_self)

/-- Spread names are read up to where no further one follows. -/
theorem Spread.takeArguments_append {names : List String} {cs : List Char}
    (spread : Spread isSpace names cs) (named : ∀ name ∈ names, isName name = true)
    {rest : List Char} (ends : EndsName rest) (stops : takeName (dropSpaces rest) = none) :
    takeArguments (cs ++ rest) = (names, rest) := by
  induction spread with
  | nil => exact takeArguments_stop stops
  | @cons gap cs name names solid spaces spread ih =>
    obtain ⟨first, named⟩ := List.forall_mem_cons.mp named
    have space : (gap ++ (name.toList ++ cs) ++ rest).head?.any isSpace = true := by
      obtain ⟨c, gap, rfl⟩ := List.exists_cons_of_ne_nil solid
      exact spaces c List.mem_cons_self
    have taken : takeName (dropSpaces (gap ++ (name.toList ++ cs) ++ rest)) =
        some (name, cs ++ rest) := by
      rw [List.append_assoc, List.append_assoc, dropSpaces_append_name spaces first,
        takeName_append first (spread.endsName ends)]
    rw [takeArguments_step space taken, ih named]

theorem takeBare_append {c : Call} (readable : c.Readable) {spread : List Char}
    (arguments : Spread isSpace c.arguments spread) {rest : List Char} (ends : EndsName rest)
    (stops : takeName (dropSpaces rest) = none) :
    takeBare (c.name.toList ++ (spread ++ rest)) = some (c, rest) := by
  rw [takeBare, takeName_append readable.1 (arguments.endsName ends)]
  simp [arguments.takeArguments_append readable.2 ends stops]

theorem takeBracketed_append {c : Call} (readable : c.Readable) {opening spread closing : List Char}
    (opening_spaces : OnlySpaces isSpace opening) (arguments : Spread isSpace c.arguments spread)
    (closing_spaces : OnlySpaces isSpace closing) (rest : List Char) :
    takeBracketed ('(' :: (opening ++ (c.name.toList ++ (spread ++ (closing ++ ')' :: rest))))) =
      some (c, rest) := by
  have ends : EndsName (closing ++ ')' :: rest) :=
    .append closing_spaces (by simp [EndsName]; decide)
  have closed : dropSpaces (closing ++ ')' :: rest) = ')' :: rest := by
    rw [dropSpaces_append closing_spaces]
    rfl
  have taken := takeBare_append readable arguments ends (by rw [closed]; rfl)
  rw [takeBracketed, dropSpaces_append_name opening_spaces readable.1, taken]
  simp [closed, takeClosing]

theorem takeBracketed_name {s : String} (named : isName s = true) (rest : List Char) :
    takeBracketed (s.toList ++ rest) = none := by
  obtain ⟨d, ds, begins, letter, -⟩ := isName_iff.mp named
  rw [begins, List.cons_append, takeBracketed]
  rintro _ ⟨⟩
  simp at letter

/-- Every layout of a call is read as the call. -/
theorem read_of_laidOut {c : Call} (readable : c.Readable) {text : String}
    (laid : c.LaidOut isSpace text.toList) : read text = .ok c := by
  generalize spelled : text.toList = cs at laid
  cases laid with
  | @bare before spread after before_spaces arguments after_spaces =>
    have start : dropSpaces text.toList = c.name.toList ++ (spread ++ after) := by
      rw [spelled, dropSpaces_append_name before_spaces readable.1]
    have unbracketed := takeBracketed_name readable.1 (spread ++ after)
    have ends : EndsName after := List.append_nil after ▸ .append after_spaces (by simp [EndsName])
    have taken := takeBare_append readable arguments ends
      (by rw [dropSpaces_eq_nil after_spaces]; rfl)
    simp [read, start, unbracketed, taken, dropSpaces_eq_nil after_spaces]
  | @bracketed before opening spread closing after before_spaces opening_spaces arguments
      closing_spaces after_spaces =>
    have bracketed : takeBracketed (dropSpaces text.toList) = some (c, after) := by
      rw [spelled, dropSpaces_append before_spaces]
      exact takeBracketed_append readable opening_spaces arguments closing_spaces after
    simp [read, bracketed, dropSpaces_eq_nil after_spaces]

theorem exists_spread_of_takeArguments (cs : List Char) :
    ∃ spread, Spread isSpace (takeArguments cs).1 spread ∧ cs = spread ++ (takeArguments cs).2 := by
  fun_induction takeArguments cs with
  | case1 cs space name rest found _ names rest' eq ih =>
    obtain ⟨spread, arguments, same⟩ := ih
    obtain ⟨gap, spaces, split⟩ := exists_spaces_append cs
    rw [eq] at arguments same
    rw [eq_of_takeName found] at split
    refine ⟨gap ++ (name.toList ++ spread), .cons ?_ spaces arguments, ?_⟩
    · rintro rfl
      -- the text begins with a space, so it does not begin with the name
      obtain ⟨c, ds, spelled, letter, -⟩ := isName_iff.mp (isName_of_takeName found)
      rw [split, List.nil_append, spelled] at space
      exact absurd (isSpace_false_of_isAlpha letter) (by simpa using space)
    · rw [split, same]
      simp
  | case2 cs => exact ⟨[], .nil, rfl⟩
  | case3 cs => exact ⟨[], .nil, rfl⟩

theorem exists_spread_of_takeBare {cs rest : List Char} {c : Call}
    (found : takeBare cs = some (c, rest)) :
    ∃ spread, Spread isSpace c.arguments spread ∧ cs = c.name.toList ++ (spread ++ rest) := by
  simp only [takeBare, Option.bind_eq_bind, Option.pure_def, Option.bind_eq_some_iff,
    Option.some.injEq, Prod.mk.injEq, Prod.exists] at found
  obtain ⟨name, middle, taken, rfl, rfl⟩ := found
  obtain ⟨spread, arguments, same⟩ := exists_spread_of_takeArguments middle
  exact ⟨spread, arguments, by rw [← same, eq_of_takeName taken]⟩

theorem takeClosing_eq_some {cs rest : List Char} (closed : takeClosing cs = some rest) :
    cs = ')' :: rest := by
  unfold takeClosing at closed
  split at closed
  · rw [Option.some.inj closed]
  · cases closed

theorem exists_spread_of_takeBracketed {cs rest : List Char} {c : Call}
    (found : takeBracketed cs = some (c, rest)) :
    ∃ opening spread closing, OnlySpaces isSpace opening ∧ Spread isSpace c.arguments spread ∧
      OnlySpaces isSpace closing ∧
      cs = '(' :: (opening ++ (c.name.toList ++ (spread ++ (closing ++ ')' :: rest)))) := by
  unfold takeBracketed at found
  split at found
  · next cs =>
    simp only [Option.bind_eq_bind, Option.pure_def, Option.bind_eq_some_iff, Option.some.injEq,
      Prod.mk.injEq, Prod.exists] at found
    obtain ⟨c, middle, taken, after, closed, rfl, rfl⟩ := found
    obtain ⟨opening, opening_spaces, start⟩ := exists_spaces_append cs
    obtain ⟨spread, arguments, same⟩ := exists_spread_of_takeBare taken
    obtain ⟨closing, closing_spaces, ends⟩ := exists_spaces_append middle
    refine ⟨opening, spread, closing, opening_spaces, arguments, closing_spaces, ?_⟩
    rw [← takeClosing_eq_some closed, ← ends, ← same, ← start]
  · cases found

/-- What is read as a call is a layout of it, and the call consists of names. -/
theorem laidOut_of_read {c : Call} {text : String} (done : read text = .ok c) :
    c.Readable ∧ c.LaidOut isSpace text.toList := by
  obtain ⟨before, before_spaces, start⟩ := exists_spaces_append text.toList
  simp only [read] at done
  split at done
  · next call rest found =>
    split at done
    · next blank =>
      obtain rfl := Except.ok.inj done
      obtain ⟨after, after_spaces, ends⟩ := exists_spaces_append rest
      rw [List.isEmpty_iff.mp blank, List.append_nil] at ends
      subst ends
      obtain bracketed | ⟨-, bare⟩ := (Option.orElse_eq_some _ _ _).mp found
      · refine ⟨readable_of_takeBracketed bracketed, ?_⟩
        obtain ⟨opening, spread, closing, opening_spaces, arguments, closing_spaces, same⟩ :=
          exists_spread_of_takeBracketed bracketed
        rw [start, same]
        exact .bracketed before_spaces opening_spaces arguments closing_spaces after_spaces
      · obtain ⟨spread, arguments, same⟩ := exists_spread_of_takeBare bare
        rw [start, same]
        exact ⟨readable_of_takeBare bare, .bare before_spaces arguments after_spaces⟩
    · cases done
  · cases done

theorem read_eq_ok_iff {c : Call} {text : String} :
    read text = .ok c ↔ c.Readable ∧ c.LaidOut isSpace text.toList :=
  ⟨laidOut_of_read, fun laid => read_of_laidOut laid.1 laid.2⟩

theorem read_spaced {c : Call} (readable : c.Readable) :
    read (spaced c.name c.arguments) = .ok c :=
  read_of_laidOut readable c.laidOut_spaced

end Call
end Text
end TypedPlanning
