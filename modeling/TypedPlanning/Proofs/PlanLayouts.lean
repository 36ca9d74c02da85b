import TypedPlanning.Proofs.Calls
import TypedPlanning.Proofs.Layouts
import Mathlib.Data.List.DropRight

/-! The texts of plans. Calls in brackets follow one another, with filler before each and behind the
last, and one more pair of brackets may stand around them. Filler is passed over everywhere but in
one place: before the closing bracket of that pair there may be spaces, and no comment. -/

namespace TypedPlanning
namespace Text

variable {gap cs : List Char} {last : Bool}

theorem filler_of_onlySpaces (spaces : OnlySpaces isSpace gap) : Filler false gap := by
  induction gap with
  | nil => exact .nil
  | cons c gap ih =>
    obtain ⟨space, spaces⟩ := List.forall_mem_cons.mp spaces
    exact .space space (ih spaces)

theorem skipFiller_dropSpaces (cs : List Char) : skipFiller (dropSpaces cs) = skipFiller cs := by
  obtain ⟨gap, spaces, split⟩ := exists_spaces_append cs
  conv_rhs => rw [split]
  exact ((filler_of_onlySpaces spaces).skipFiller_append (by simp)).symm

theorem Filler.dropSpaces_append (filler : Filler last gap) :
    OnlySpaces isSpace gap ∨
      ¬ OnlySpaces isSpace gap ∧ ∀ rest, ∃ cs, dropSpaces (gap ++ rest) = ';' :: cs := by
  induction filler with
  | nil => exact .inl onlySpaces_nil
  | @space c cs blank _ ih =>
    have dropped (rest : List Char) : dropSpaces (c :: cs ++ rest) = dropSpaces (cs ++ rest) :=
      List.dropWhile_cons_of_pos blank
    simp only [OnlySpaces, List.forall_mem_cons, blank, true_and, dropped]
    exact ih
  | @comment body cs =>
    refine .inr ⟨fun spaces => ?_, fun rest => ⟨body ++ cs ++ rest, rfl⟩⟩
    exact absurd (spaces ';' List.mem_cons_self) (by decide)

theorem Filler.append {gap' : List Char} (filler : Filler false gap) (filler' : Filler last gap') :
    Filler last (gap ++ gap') := by
  induction filler with
  | nil => exact filler'
  | space blank _ ih => exact .space blank ih
  | @comment body cs oneLine ends _ ih =>
    have ends : EndsLine last (cs ++ gap') := by
      obtain lf | crlf | ⟨impossible, -⟩ := ends
      · exact .inl (lf.trans (List.prefix_append _ _))
      · exact .inr (.inl (crlf.trans (List.prefix_append _ _)))
      · cases impossible
    rw [List.cons_append, List.append_assoc]
    exact .comment oneLine ends ih

namespace Call

variable {c : Call} {calls : List Call} {chars rest closing : List Char}

inductive Bracketed (c : Call) : List Char → Prop
  | intro {opening spread closing : List Char} : OnlySpaces isSpace opening →
    Spread isSpace c.arguments spread → OnlySpaces isSpace closing →
    Bracketed c ('(' :: (opening ++ (c.name.toList ++ (spread ++ (closing ++ [')'])))))

inductive InSequence : List Call → List Char → Prop
  | nil : InSequence [] []
  | cons {gap chars rest : List Char} {c : Call} {calls : List Call} : Filler false gap →
    Bracketed c chars → InSequence calls rest → InSequence (c :: calls) (gap ++ (chars ++ rest))

/-- A text of a plan, with filler around the calls and around the outer brackets. The filler just
before the outer closing bracket is told apart; without outer brackets there is none. -/
inductive PlanLaidOut (calls : List Call) : List Char → List Char → Prop
  | bare {chars after : List Char} : InSequence calls chars → Filler true after →
    PlanLaidOut calls [] (chars ++ after)
  | wrapped {before chars closing after : List Char} : Filler false before →
    InSequence calls chars → Filler false closing → Filler true after →
    PlanLaidOut calls closing (before ++ '(' :: (chars ++ (closing ++ ')' :: after)))

theorem bracketed_spaced (c : Call) :
    c.Bracketed ('(' :: ((spaced c.name c.arguments).toList ++ [')'])) := by
  obtain ⟨spread, same, arguments⟩ := exists_spread_spaced c.name c.arguments
  rw [same, List.append_assoc]
  exact @Bracketed.intro c [] spread [] onlySpaces_nil arguments onlySpaces_nil

theorem InSequence.prepend (filler : Filler false gap) (sequence : InSequence (c :: calls) chars) :
    InSequence (c :: calls) (gap ++ chars) := by
  cases sequence with
  | cons first call others =>
    rw [← List.append_assoc]
    exact .cons (filler.append first) call others

theorem takeAll_step (found : takeBracketed (skipFiller cs) = some (c, rest)) :
    takeAll cs = (c :: (takeAll rest).1, (takeAll rest).2) := by
  rw [takeAll]
  split
  · next taken =>
    obtain ⟨rfl, rfl⟩ := Prod.mk.inj (Option.some.inj (taken.symm.trans found))
    rfl
  · next stuck => cases stuck.symm.trans found

theorem takeAll_stop (stops : takeBracketed (skipFiller cs) = none) : takeAll cs = ([], cs) := by
  rw [takeAll]
  split
  · next found => cases stops.symm.trans found
  · rfl

/-- Behind the outer opening bracket spaces are dropped first, which the calls do without. -/
theorem takeWrapped_opening (cs : List Char) : takeWrapped ('(' :: cs) =
    (takeClosing (dropSpaces (takeAll cs).2)).map ((takeAll cs).1, ·) := by
  rw [takeWrapped]
  cases found : takeBracketed (skipFiller cs) with
  | some result =>
    have found' : takeBracketed (skipFiller (dropSpaces cs)) = some result := by
      rw [skipFiller_dropSpaces, found]
    rw [takeAll_step found, takeAll_step found']
  | none =>
    have stops : takeBracketed (skipFiller (dropSpaces cs)) = none := by
      rw [skipFiller_dropSpaces, found]
    rw [takeAll_stop found, takeAll_stop stops]
    simp only [dropSpaces, List.dropWhile_idempotent]

theorem takeWrapped_eq_some {result : List Call × List Char}
    (found : takeWrapped cs = some result) : ∃ inside, cs = '(' :: inside := by
  unfold takeWrapped at found
  split at found
  · exact ⟨_, rfl⟩
  · cases found

theorem skipFiller_opening (cs : List Char) : skipFiller ('(' :: cs) = '(' :: cs :=
  skipFiller_cons cs (by decide) (by decide)

theorem Bracketed.exists_opening (call : c.Bracketed chars) : ∃ cs, chars = '(' :: cs := by
  cases call
  exact ⟨_, rfl⟩

theorem Bracketed.skipFiller_append (call : c.Bracketed chars) (filler : Filler false gap)
    (rest : List Char) : skipFiller (gap ++ (chars ++ rest)) = chars ++ rest := by
  obtain ⟨cs, rfl⟩ := call.exists_opening
  rw [filler.skipFiller_append (by simp), List.cons_append, skipFiller_opening]

theorem Bracketed.takeBracketed_append (readable : c.Readable) (call : c.Bracketed chars)
    (rest : List Char) : takeBracketed (chars ++ rest) = some (c, rest) := by
  obtain ⟨opening_spaces, arguments, closing_spaces⟩ := call
  have taken := Call.takeBracketed_append readable opening_spaces arguments closing_spaces rest
  simpa using taken

theorem InSequence.takeAll_append (sequence : InSequence calls chars)
    (readable : ∀ c ∈ calls, c.Readable) (stops : takeBracketed (skipFiller rest) = none) :
    takeAll (chars ++ rest) = (calls, rest) := by
  induction sequence with
  | nil => exact takeAll_stop stops
  | @cons gap chars chars' c calls filler call _ ih =>
    obtain ⟨first, others⟩ := List.forall_mem_cons.mp readable
    have found : takeBracketed (skipFiller (gap ++ (chars ++ chars') ++ rest)) =
        some (c, chars' ++ rest) := by
      rw [List.append_assoc, List.append_assoc, call.skipFiller_append filler,
        call.takeBracketed_append first]
    rw [takeAll_step found, ih others]

theorem skipFiller_name {s : String} (named : isName s = true) (rest : List Char) :
    skipFiller (s.toList ++ rest) = s.toList ++ rest := by
  obtain ⟨d, ds, begins, letter, -⟩ := isName_iff.mp named
  rw [begins, List.cons_append]
  exact skipFiller_cons _ (isSpace_false_of_isAlpha letter) (by rintro rfl; simp at letter)

theorem takeClosing_name {s : String} (named : isName s = true) (rest : List Char) :
    takeClosing (s.toList ++ rest) = none := by
  obtain ⟨d, ds, begins, letter, -⟩ := isName_iff.mp named
  rw [begins, List.cons_append, takeClosing]
  rintro _ ⟨⟩
  simp at letter

/-- A call in brackets is not taken for a list of calls. -/
theorem Bracketed.takeWrapped_append (readable : c.Readable) (call : c.Bracketed chars)
    (rest : List Char) : takeWrapped (chars ++ rest) = none := by
  cases call with
  | @intro opening spread closing opening_spaces =>
    have dropped := dropSpaces_append_name opening_spaces readable.1
      (spread ++ (closing ++ [')']) ++ rest)
    have stops : takeBracketed (skipFiller (opening ++
        (c.name.toList ++ (spread ++ (closing ++ [')']) ++ rest)))) = none := by
      rw [← skipFiller_dropSpaces, dropped, skipFiller_name readable.1,
        takeBracketed_name readable.1]
    rw [List.cons_append, List.append_assoc, List.append_assoc, takeWrapped_opening,
      takeAll_stop stops, dropped, takeClosing_name readable.1]
    rfl

theorem takeName_dropSpaces_append (filler : Filler last gap) {d : Char}
    (bracket : d = '(' ∨ d = ')') (rest : List Char) :
    takeName (dropSpaces (gap ++ d :: rest)) = none := by
  obtain spaces | ⟨-, dropped⟩ := filler.dropSpaces_append
  · rw [dropSpaces_append spaces]
    obtain rfl | rfl := bracket <;> rfl
  · obtain ⟨cs, begins⟩ := dropped (d :: rest)
    rw [begins]
    rfl

theorem InSequence.takeAll_opening (sequence : InSequence calls chars)
    (filler : Filler false closing) (after : List Char) :
    takeAll ('(' :: (chars ++ (closing ++ ')' :: after))) =
      ([], '(' :: (chars ++ (closing ++ ')' :: after))) := by
  have unnamed : takeName (dropSpaces (chars ++ (closing ++ ')' :: after))) = none := by
    cases sequence with
    | nil => exact takeName_dropSpaces_append filler (.inr rfl) after
    | cons first call others =>
      obtain ⟨cs, rfl⟩ := call.exists_opening
      rw [List.append_assoc, List.append_assoc]
      exact takeName_dropSpaces_append first (.inl rfl) _
  refine takeAll_stop ?_
  rw [skipFiller_opening, takeBracketed, takeBare, unnamed]
  rfl

/-- The calls in the outer brackets are read, and then only spaces are dropped. -/
theorem InSequence.takeWrapped_eq (sequence : InSequence calls chars)
    (readable : ∀ c ∈ calls, c.Readable) (filler : Filler false closing) (after : List Char) :
    takeWrapped ('(' :: (chars ++ (closing ++ ')' :: after))) =
      (takeClosing (dropSpaces (closing ++ ')' :: after))).map (calls, ·) := by
  have stops : takeBracketed (skipFiller (closing ++ ')' :: after)) = none := by
    rw [filler.skipFiller_append (by simp), skipFiller_cons _ (by decide) (by decide)]
    rfl
  rw [takeWrapped_opening, sequence.takeAll_append readable stops]

section

variable {text : String} {before after : List Char}

theorem readPlan_eq_ok (start : skipFiller text.toList = cs)
    (taken : (takeWrapped cs).getD (takeAll cs) = (calls, rest)) (done : skipFiller rest = []) :
    readPlan text = .ok calls := by
  simp only [readPlan, start, taken, done]

theorem readPlan_bare (readable : ∀ c ∈ calls, c.Readable) (spelled : text.toList = chars ++ after)
    (sequence : InSequence calls chars) (ending : Filler true after) :
    readPlan text = .ok calls := by
  have ended := ending.skipFiller_eq_nil
  cases sequence with
  | nil =>
    have start : skipFiller text.toList = [] := by rw [spelled, List.nil_append, ended]
    have taken : (takeWrapped []).getD (takeAll []) = ([], []) := takeAll_stop rfl
    exact readPlan_eq_ok start taken rfl
  | @cons gap chars chars' c calls first call others =>
    have start : skipFiller text.toList = chars ++ (chars' ++ after) := by
      rw [spelled, List.append_assoc, List.append_assoc, call.skipFiller_append first]
    have unwrapped := call.takeWrapped_append (readable c List.mem_cons_self) (chars' ++ after)
    have stops : takeBracketed (skipFiller after) = none := by rw [ended]; rfl
    have taken := (InSequence.cons .nil call others).takeAll_append readable stops
    rw [List.nil_append, List.append_assoc] at taken
    refine readPlan_eq_ok start ?_ ended
    rw [unwrapped, taken]
    rfl

theorem skipFiller_wrapped (spelled : text.toList = before ++ '(' :: cs)
    (opening : Filler false before) : skipFiller text.toList = '(' :: cs := by
  rw [spelled, opening.skipFiller_append (by simp), skipFiller_opening]

theorem readPlan_wrapped (readable : ∀ c ∈ calls, c.Readable)
    (spelled : text.toList = before ++ '(' :: (chars ++ (closing ++ ')' :: after)))
    (opening : Filler false before) (sequence : InSequence calls chars)
    (spaces : OnlySpaces isSpace closing) (ending : Filler true after) :
    readPlan text = .ok calls := by
  have wrapped := sequence.takeWrapped_eq readable (filler_of_onlySpaces spaces) after
  rw [dropSpaces_append spaces] at wrapped
  refine readPlan_eq_ok (skipFiller_wrapped spelled opening) ?_ ending.skipFiller_eq_nil
  rw [wrapped]
  rfl

theorem readPlan_commented (readable : ∀ c ∈ calls, c.Readable)
    (spelled : text.toList = before ++ '(' :: (chars ++ (closing ++ ')' :: after)))
    (opening : Filler false before) (sequence : InSequence calls chars)
    (filler : Filler false closing) (commented : ¬ OnlySpaces isSpace closing) :
    ∃ line, readPlan text = .error (.unreadable .plan line .notCalls) := by
  obtain ⟨cs, dropped⟩ : ∃ cs, dropSpaces (closing ++ ')' :: after) = ';' :: cs := by
    obtain spaces | ⟨-, dropped⟩ := filler.dropSpaces_append
    · exact absurd spaces commented
    · exact dropped _
  have unwrapped : takeWrapped ('(' :: (chars ++ (closing ++ ')' :: after))) = none := by
    rw [sequence.takeWrapped_eq readable filler, dropped]
    rfl
  refine ⟨lineNumber text.toList ('(' :: (chars ++ (closing ++ ')' :: after))), ?_⟩
  simp only [readPlan, skipFiller_wrapped spelled opening, unwrapped, Option.getD_none,
    sequence.takeAll_opening filler after, skipFiller_opening]

theorem readPlan_of_planLaidOut (readable : ∀ c ∈ calls, c.Readable)
    (laid : PlanLaidOut calls closing text.toList) :
    (OnlySpaces isSpace closing → readPlan text = .ok calls) ∧
    (¬ OnlySpaces isSpace closing →
      ∃ line, readPlan text = .error (.unreadable .plan line .notCalls)) := by
  generalize spelled : text.toList = cs at laid
  cases laid with
  | bare sequence ending =>
    exact ⟨fun _ => readPlan_bare readable spelled sequence ending,
      fun commented => absurd onlySpaces_nil commented⟩
  | wrapped opening sequence filler ending =>
    exact ⟨fun spaces => readPlan_wrapped readable spelled opening sequence spaces ending,
      readPlan_commented readable spelled opening sequence filler⟩

end

theorem bracketed_of_takeBracketed (found : takeBracketed cs = some (c, rest)) :
    ∃ chars, c.Bracketed chars ∧ cs = chars ++ rest := by
  obtain ⟨opening, spread, closing, opening_spaces, arguments, closing_spaces, same⟩ :=
    exists_spread_of_takeBracketed found
  refine ⟨_, .intro opening_spaces arguments closing_spaces, ?_⟩
  rw [same]
  simp

theorem exists_inSequence_of_takeAll (cs : List Char) :
    ∃ chars, InSequence (takeAll cs).1 chars ∧ cs = chars ++ (takeAll cs).2 := by
  fun_induction takeAll cs with
  | case1 cs c rest found _ calls rest' eq ih =>
    obtain ⟨chars', others, same⟩ := ih
    obtain ⟨chars, call, begins⟩ := bracketed_of_takeBracketed found
    obtain ⟨gap, split, filler⟩ := exists_filler_of_skipFiller begins
    obtain ⟨cs', rfl⟩ := call.exists_opening
    rw [eq] at others same
    refine ⟨gap ++ ('(' :: cs' ++ chars'), .cons filler call others, ?_⟩
    rw [split, same]
    simp
  | case2 cs => exact ⟨[], .nil, rfl⟩

theorem planLaidOut_of_takeAll {before after : List Char} (opening : Filler cs.isEmpty before)
    (taken : takeAll cs = (calls, after)) (ending : Filler true after) :
    PlanLaidOut calls [] (before ++ cs) := by
  obtain ⟨chars, sequence, split⟩ := exists_inSequence_of_takeAll cs
  rw [taken] at sequence split
  cases sequence with
  | nil =>
    obtain rfl : cs = after := split
    have filler : Filler true (before ++ cs) := by
      cases cs with
      | nil => rwa [List.append_nil]
      | cons d cs => exact opening.append ending
    exact @PlanLaidOut.bare [] [] _ .nil filler
  | cons first call others =>
    have solid : cs.isEmpty = false := by
      obtain ⟨inside, rfl⟩ := call.exists_opening
      rw [split]
      simp
    rw [solid] at opening
    rw [split, ← List.append_assoc]
    exact .bare (.prepend opening (.cons first call others)) ending

theorem planLaidOut_of_takeWrapped {before after : List Char} (opening : Filler cs.isEmpty before)
    (taken : takeWrapped cs = some (calls, after)) (ending : Filler true after) :
    ∃ closing, OnlySpaces isSpace closing ∧ PlanLaidOut calls closing (before ++ cs) := by
  obtain ⟨inside, rfl⟩ := takeWrapped_eq_some taken
  rw [takeWrapped_opening] at taken
  obtain ⟨_, closed, same⟩ := Option.map_eq_some_iff.mp taken
  obtain ⟨rfl, rfl⟩ := Prod.mk.inj same
  obtain ⟨chars, sequence, split⟩ := exists_inSequence_of_takeAll inside
  obtain ⟨closing, spaces, ends⟩ := exists_spaces_append (takeAll inside).2
  rw [takeClosing_eq_some closed] at ends
  have laid := PlanLaidOut.wrapped opening sequence (filler_of_onlySpaces spaces) ending
  rw [← ends, ← split] at laid
  exact ⟨closing, spaces, laid⟩

theorem planLaidOut_of_readPlan {text : String} (read : readPlan text = .ok calls) :
    ∃ closing, OnlySpaces isSpace closing ∧ PlanLaidOut calls closing text.toList := by
  obtain ⟨before, split, opening⟩ := @exists_filler_of_skipFiller text.toList _ rfl
  rw [split]
  simp only [readPlan] at read
  split at read
  · next done =>
    obtain rfl := Except.ok.inj read
    obtain ⟨after, ends, ending⟩ := exists_filler_of_skipFiller done
    rw [List.append_nil] at ends
    cases wrapped : takeWrapped (skipFiller text.toList) with
    | some result =>
      rw [wrapped] at ends
      exact planLaidOut_of_takeWrapped opening wrapped (ends ▸ ending)
    | none =>
      rw [wrapped] at ends
      exact ⟨[], onlySpaces_nil, planLaidOut_of_takeAll opening rfl (ends ▸ ending)⟩
  · cases read

/-- A text is read as a plan exactly if it is one of its layouts in which only spaces stand before
the outer closing bracket. So a layout with a comment in that place is refused, and every other
layout of calls that consist of names is read. -/
theorem readPlan_eq_ok_iff_laidOut (text : String) (calls : List Call) :
    (readPlan text = .ok calls ↔ (∀ c ∈ calls, c.Readable) ∧
      ∃ closing, OnlySpaces isSpace closing ∧ PlanLaidOut calls closing text.toList) ∧
    ∀ closing, (∀ c ∈ calls, c.Readable) → PlanLaidOut calls closing text.toList →
      (OnlySpaces isSpace closing → readPlan text = .ok calls) ∧
      (¬ OnlySpaces isSpace closing →
        ∃ line, readPlan text = .error (.unreadable .plan line .notCalls)) := by
  refine ⟨⟨fun read => ⟨readable_of_readPlan read, planLaidOut_of_readPlan read⟩, ?_⟩,
    fun closing readable laid => readPlan_of_planLaidOut readable laid⟩
  rintro ⟨readable, closing, spaces, laid⟩
  exact (readPlan_of_planLaidOut readable laid).1 spaces

def errand : List Call := [⟨"move", ["r1", "kitchen"]⟩]

theorem readable_errand : ∀ c ∈ errand, c.Readable :=
  List.forall_mem_singleton.mpr ⟨by decide +kernel, by decide +kernel⟩

theorem planLaidOut_errand {before after : List Char} (opening : Filler false before)
    (filler : Filler false closing) (ending : Filler true after) : PlanLaidOut errand closing
      (before ++ ("((move r1 kitchen)".toList ++ (closing ++ ')' :: after))) :=
  .wrapped opening (.cons .nil (bracketed_spaced ⟨"move", ["r1", "kitchen"]⟩) .nil) filler ending

/-- A comment is read over before and behind the outer brackets. -/
theorem readPlan_eq_ok_iff_laidOut_errand : (∀ c ∈ errand, c.Readable) ∧
    OnlySpaces isSpace ['\n'] ∧
    PlanLaidOut errand ['\n'] "; by hand\n((move r1 kitchen)\n);".toList ∧
    readPlan "; by hand\n((move r1 kitchen)\n);" = .ok errand := by
  have comment : Filler false "; by hand\n".toList :=
    @Filler.comment _ [' ', 'b', 'y', ' ', 'h', 'a', 'n', 'd'] ['\n'] (by simp) (.inl ⟨[], rfl⟩)
      (.space (by decide) .nil)
  have ending : Filler true [';'] := @Filler.comment _ [] [] (by simp) (.inr (.inr ⟨rfl, rfl⟩)) .nil
  have laid : PlanLaidOut errand ['\n'] "; by hand\n((move r1 kitchen)\n);".toList :=
    planLaidOut_errand comment (.space (by decide) .nil) ending
  have spaces : OnlySpaces isSpace ['\n'] := List.forall_mem_singleton.mpr (by decide)
  obtain ⟨-, read⟩ := readPlan_eq_ok_iff_laidOut "; by hand\n((move r1 kitchen)\n);" errand
  exact ⟨readable_errand, spaces, laid, (read _ readable_errand laid).1 spaces⟩

/-- A comment behind the last call makes the plan unreadable if the outer bracket is closed then. -/
theorem readPlan_comment_before_closing : (∀ c ∈ errand, c.Readable) ∧
    PlanLaidOut errand " ; done\n".toList "((move r1 kitchen) ; done\n)".toList ∧
    readPlan "((move r1 kitchen) ; done\n)" = .error (.unreadable .plan 1 .notCalls) := by
  have line : Filler false "; done\n".toList :=
    @Filler.comment _ [' ', 'd', 'o', 'n', 'e'] ['\n'] (by simp) (.inl ⟨[], rfl⟩)
      (.space (by decide) .nil)
  have comment : Filler false " ; done\n".toList := .space (by decide) line
  exact ⟨readable_errand, planLaidOut_errand .nil comment .nil, by decide +kernel⟩

end Call
end Text
end TypedPlanning
