import Mathlib.Logic.Relation
import TypedPlanning.Proofs.Layouts

/-! The place that a reading error points at. A scan goes over a text from left to right, from one
boundary between lexemes to the next, and counts the lists that are open. Where it cannot go on, or
ends too early, the text has its first offence. The scan can always go on at any other place, and
what is read so far goes on with it; so a text is read exactly if it has no offence, and otherwise
the error tells the one that it has. -/

namespace TypedPlanning
namespace Text
open Relation

/-- What follows a comment at the front, from the end of its line on. -/
def Comment (cs rest : List Char) : Prop :=
  ∃ body, cs = ';' :: (body ++ rest) ∧ (∀ c ∈ body, c ≠ '\n' ∧ c ≠ '\r') ∧ EndsLine true rest

/-- One step of a scan, with the number of open lists before and after it. -/
inductive Passes : ℕ × List Char → ℕ × List Char → Prop where
  | space {depth : ℕ} {c : Char} {cs : List Char} :
    isSpace c = true → Passes (depth, c :: cs) (depth, cs)
  | comment {depth : ℕ} {cs rest : List Char} : Comment cs rest → Passes (depth, cs) (depth, rest)
  | opening {depth : ℕ} {cs : List Char} : Passes (depth, '(' :: cs) (depth + 1, cs)
  | closing {depth : ℕ} {cs : List Char} : Passes (depth + 1, ')' :: cs) (depth, cs)
  | word {depth : ℕ} {c : Char} {w cs : List Char} : (∀ d ∈ c :: w, isWordChar d = true) →
    (∀ d ∈ cs.head?, isWordChar d = false) → Passes (depth, c :: (w ++ cs)) (depth, cs)

/-- The first stretch of a text between white space. It is empty only if nothing but white space is
there. -/
def IsFirstWord (w cs : List Char) : Prop :=
  ∃ blanks rest, cs = blanks ++ (w ++ rest) ∧ (∀ c ∈ blanks, isBlank c = true) ∧
    (∀ c ∈ w, isBlank c = false) ∧ (∀ c ∈ rest.head?, isBlank c = true) ∧ (w = [] → rest = [])

/-- What is wrong at a boundary, with a number of lists open there. -/
inductive Offence : ℕ → List Char → ReadingFault → Prop where
  | unbalanced {cs : List Char} : Offence 0 (')' :: cs) .unbalanced
  | unexpected {depth : ℕ} {c : Char} {cs w : List Char} : isSpace c = false → c ≠ '(' → c ≠ ')' →
    isWordChar c = false → (∀ rest, ¬Comment (c :: cs) rest) → IsFirstWord w (c :: cs) →
    Offence depth (c :: cs) (.unexpectedWord (.ofList w))
  | unclosed {depth : ℕ} : 0 < depth → Offence depth [] .unclosed

def FirstOffence (text before : List Char) (fault : ReadingFault) : Prop :=
  ∃ depth rest, text = before ++ rest ∧ ReflTransGen Passes (0, text) (depth, rest) ∧
    Offence depth rest fault

theorem isFirstWord_firstWord (cs : List Char) : IsFirstWord (firstWord cs) cs := by
  refine ⟨cs.takeWhile isBlank, (cs.dropWhile isBlank).dropWhile (!isBlank ·), ?_, ?_, ?_, ?_, ?_⟩
  · rw [firstWord, List.takeWhile_append_dropWhile, List.takeWhile_append_dropWhile]
  · exact fun c hc => List.mem_takeWhile_imp hc
  · intro c hc
    rw [firstWord] at hc
    simpa using List.mem_takeWhile_imp hc
  · intro c hc
    simpa using ends_dropWhile (!isBlank ·) (cs.dropWhile isBlank) c hc
  · intro empty
    have begins := ends_dropWhile isBlank cs
    rw [firstWord] at empty
    generalize cs.dropWhile isBlank = rest at begins empty
    cases rest with
    | nil => rfl
    | cons c rest => simp [begins c rfl] at empty

theorem IsFirstWord.eq_firstWord {w cs : List Char} (first : IsFirstWord w cs) :
    w = firstWord cs := by
  obtain ⟨blanks, rest, rfl, blank, solid, ended, whole⟩ := first
  have begins : ∀ c ∈ (w ++ rest).head?, isBlank c = false := by
    cases w with
    | nil => simp [whole rfl]
    | cons c w => simpa using solid c List.mem_cons_self
  rw [firstWord, dropWhile_append_of_ends blank begins]
  refine (takeWhile_append_of_ends (fun c hc => ?_) fun c hc => ?_).symm
  · rw [solid c hc]
    rfl
  · rw [ended c hc]
    rfl

theorem Comment.skipFiller_eq {cs rest : List Char} (comment : Comment cs rest) :
    skipFiller cs = skipFiller rest := by
  obtain ⟨body, rfl, oneLine, ends⟩ := comment
  calc skipFiller (';' :: (body ++ rest))
    _ = skipFillerFrom (some (';' :: (body ++ rest))) (body ++ rest) := rfl
    _ = skipFillerFrom (some (';' :: (body ++ rest))) (rest ++ []) := by
      rw [skipFillerFrom_body _ oneLine, List.append_nil]
    _ = skipFillerFrom none (rest ++ []) := skipFillerFrom_endsLine _ ends fun _ => rfl
    _ = skipFiller rest := by rw [List.append_nil, skipFiller]

theorem EndsLine.append {cs rest : List Char} (ends : EndsLine rest.isEmpty cs) :
    EndsLine true (cs ++ rest) := by
  obtain lf | crlf | ⟨last, rfl⟩ := ends
  · exact .inl (lf.trans (List.prefix_append _ _))
  · exact .inr (.inl (crlf.trans (List.prefix_append _ _)))
  · rw [List.isEmpty_iff.mp last]
    exact .inr (.inr ⟨rfl, rfl⟩)

/-- A semicolon stops the skipping only if no comment begins there. -/
theorem skipFiller_semicolon {cs : List Char} (none : ∀ rest, ¬Comment (';' :: cs) rest) :
    skipFiller (';' :: cs) = ';' :: cs := by
  obtain ⟨gap, split, filler⟩ := @exists_filler_of_skipFiller (';' :: cs) _ rfl
  generalize skipFiller (';' :: cs) = rest at split filler
  cases filler with
  | nil => exact split.symm
  | space blank =>
    obtain ⟨rfl, -⟩ := List.cons.inj split
    cases blank
  | @comment body gap oneLine ends =>
    refine absurd ⟨body, ?_, oneLine, ends.append⟩ (none (gap ++ rest))
    rw [split, List.cons_append, List.append_assoc]

theorem Offence.skipFiller_eq {depth : ℕ} {cs : List Char} {fault : ReadingFault}
    (offence : Offence depth cs fault) : skipFiller cs = cs := by
  cases offence with
  | unbalanced => exact skipFiller_cons _ (by decide) (by decide)
  | @unexpected _ c cs _ notSpace _ _ _ none _ =>
    by_cases semicolon : c = ';'
    · subst semicolon
      exact skipFiller_semicolon none
    · exact skipFiller_cons _ notSpace semicolon
  | unclosed => rfl

theorem lexemes_congr {cs cs' : List Char} (same : skipFiller cs = skipFiller cs') :
    lexemes cs = lexemes cs' := by
  rw [lexemes_eq cs, lexemes_eq cs', same]

theorem passes_or_offence (depth : ℕ) (cs : List Char) :
    (depth = 0 ∧ cs = []) ∨ (∃ fault, Offence depth cs fault) ∨
      ∃ depth' rest, Passes (depth, cs) (depth', rest) ∧ rest.length < cs.length := by
  cases cs with
  | nil =>
    obtain rfl | opened := Nat.eq_zero_or_pos depth
    · exact .inl ⟨rfl, rfl⟩
    · exact .inr (.inl ⟨_, .unclosed opened⟩)
  | cons c cs =>
    right
    by_cases opening : c = '('
    · subst opening
      exact .inr ⟨_, cs, .opening, Nat.lt_succ_self _⟩
    by_cases closing : c = ')'
    · subst closing
      cases depth with
      | zero => exact .inl ⟨_, .unbalanced⟩
      | succ depth => exact .inr ⟨_, cs, .closing, Nat.lt_succ_self _⟩
    by_cases space : isSpace c = true
    · exact .inr ⟨_, cs, .space space, Nat.lt_succ_self _⟩
    by_cases inWord : isWordChar c = true
    · have step : Passes (depth, c :: (cs.takeWhile isWordChar ++ cs.dropWhile isWordChar))
          (depth, cs.dropWhile isWordChar) :=
        .word (List.forall_mem_cons.mpr ⟨inWord, fun d hd => List.mem_takeWhile_imp hd⟩)
          (ends_dropWhile isWordChar cs)
      rw [List.takeWhile_append_dropWhile] at step
      exact .inr ⟨_, _, step, Nat.lt_succ_of_le (List.dropWhile_suffix isWordChar).length_le⟩
    by_cases comment : ∃ rest, Comment (c :: cs) rest
    · obtain ⟨rest, body, same, comment⟩ := comment
      refine .inr ⟨_, rest, .comment ⟨body, same, comment⟩, ?_⟩
      rw [same, List.length_cons, List.length_append]
      omega
    · rw [Bool.not_eq_true] at space inWord
      exact .inl ⟨_, .unexpected space opening closing inWord (not_exists.mp comment)
        (isFirstWord_firstWord _)⟩

theorem Passes.suffix {here there : ℕ × List Char} (step : Passes here there) :
    there.2 <:+ here.2 := by
  cases step with
  | space => exact List.suffix_cons _ _
  | comment comment =>
    obtain ⟨body, rfl, -⟩ := comment
    exact (List.suffix_append body _).trans (List.suffix_cons _ _)
  | opening => exact List.suffix_cons _ _
  | closing => exact List.suffix_cons _ _
  | word => exact (List.suffix_append _ _).trans (List.suffix_cons _ _)

/-- Reading goes along with a scan. As many lists are open, and the rest is read as the whole. -/
theorem Passes.nest_eq {here there : ℕ × List Char} (step : Passes here there)
    (enclosing : List (List Expression)) (level : List Expression)
    (opened : enclosing.length = here.1) :
    ∃ enclosing' level', enclosing'.length = there.1 ∧
      nest enclosing level (lexemes here.2) = nest enclosing' level' (lexemes there.2) := by
  cases step with
  | space space =>
    exact ⟨enclosing, level, opened, by rw [lexemes_congr (skipFillerFrom_space space _)]⟩
  | comment comment =>
    exact ⟨enclosing, level, opened, by rw [lexemes_congr comment.skipFiller_eq]⟩
  | @opening depth cs =>
    refine ⟨level :: enclosing, [], congrArg (· + 1) opened, ?_⟩
    rw [lexemes_eq, skipFiller_cons cs (by decide) (by decide)]
    rfl
  | @closing depth cs =>
    obtain ⟨outer, enclosing, rfl⟩ := List.exists_cons_of_length_eq_add_one opened
    refine ⟨enclosing, .list level.reverse :: outer, Nat.succ.inj opened, ?_⟩
    rw [lexemes_eq, skipFiller_cons cs (by decide) (by decide)]
    rfl
  | @word depth c w cs proper ended =>
    obtain ⟨inWord, proper⟩ := List.forall_mem_cons.mp proper
    have notSpace : isSpace c = false := by
      rw [← Bool.not_eq_true]
      exact fun space => absurd inWord (by rw [isWordChar_of_isSpace space]; decide)
    have notComment : c ≠ ';' := by
      rintro rfl
      exact absurd inWord (by decide)
    refine ⟨enclosing, .word (.ofList (c :: w)) :: level, opened, ?_⟩
    rw [lexemes_eq, skipFiller_cons _ notSpace notComment]
    simp only [if_neg (isWordChar_ne inWord).1, if_neg (isWordChar_ne inWord).2, if_pos inWord,
      takeWhile_append_of_ends proper ended, dropWhile_append_of_ends proper ended]
    rw [nest]

theorem Offence.nest_eq {cs : List Char} {fault : ReadingFault} {enclosing : List (List Expression)}
    (offence : Offence enclosing.length cs fault) (level : List Expression) :
    nest enclosing level (lexemes cs) = .error cs ∧ faultAt cs = fault := by
  have skipped := offence.skipFiller_eq
  generalize opened : enclosing.length = depth at offence
  cases offence with
  | unbalanced =>
    rw [List.length_eq_zero_iff.mp opened, lexemes_eq, skipped]
    exact ⟨rfl, rfl⟩
  | unexpected _ notOpening notClosing notWord _ first =>
    rw [lexemes_eq, skipped, faultAt, if_neg notClosing, first.eq_firstWord]
    simp only [if_neg notOpening, if_neg notClosing, notWord]
    exact ⟨rfl, trivial⟩
  | unclosed some_open =>
    obtain ⟨outer, enclosing, rfl⟩ := List.exists_cons_of_length_pos (opened ▸ some_open)
    rw [lexemes_eq]
    exact ⟨rfl, rfl⟩

theorem suffix_of_scan {here there : ℕ × List Char} (scan : ReflTransGen Passes here there) :
    there.2 <:+ here.2 := by
  induction scan with
  | refl => exact List.suffix_refl _
  | tail _ step ih => exact step.suffix.trans ih

theorem nest_of_scan {text : List Char} {there : ℕ × List Char}
    (scan : ReflTransGen Passes (0, text) there) :
    ∃ enclosing level, enclosing.length = there.1 ∧
      nest [] [] (lexemes text) = nest enclosing level (lexemes there.2) := by
  induction scan with
  | refl => exact ⟨[], [], rfl, rfl⟩
  | tail _ step ih =>
    obtain ⟨enclosing, level, opened, same⟩ := ih
    obtain ⟨enclosing', level', opened', same'⟩ := step.nest_eq enclosing level opened
    exact ⟨enclosing', level', opened', same.trans same'⟩

theorem exists_scan (n : ℕ) : ∀ (depth : ℕ) (cs : List Char), cs.length ≤ n →
    ReflTransGen Passes (depth, cs) (0, []) ∨
      ∃ depth' rest fault, ReflTransGen Passes (depth, cs) (depth', rest) ∧
        Offence depth' rest fault := by
  -- the induction is on a bound for the length: no step lengthens the rest, but words shorten it
  -- by more than one
  induction n with
  | zero =>
    intro depth cs short
    obtain rfl := List.length_eq_zero_iff.mp (Nat.le_zero.mp short)
    obtain ⟨rfl, -⟩ | ⟨fault, offence⟩ | ⟨_, _, _, shorter⟩ := passes_or_offence depth []
    · exact .inl .refl
    · exact .inr ⟨depth, [], fault, .refl, offence⟩
    · exact absurd shorter (Nat.not_lt_zero _)
  | succ n ih =>
    intro depth cs short
    obtain ⟨rfl, rfl⟩ | ⟨fault, offence⟩ | ⟨depth', rest, step, shorter⟩ :=
      passes_or_offence depth cs
    · exact .inl .refl
    · exact .inr ⟨depth, cs, fault, .refl, offence⟩
    · obtain ends | ⟨last, final, fault, scan, offence⟩ := ih depth' rest (by omega)
      · exact .inl (.head step ends)
      · exact .inr ⟨last, final, fault, .head step scan, offence⟩

theorem FirstOffence.nest_eq {text before : List Char} {fault : ReadingFault}
    (first : FirstOffence text before fault) :
    ∃ rest, text = before ++ rest ∧ nest [] [] (lexemes text) = .error rest ∧
      faultAt rest = fault := by
  obtain ⟨depth, rest, split, scan, offence⟩ := first
  obtain ⟨enclosing, level, rfl, same⟩ := nest_of_scan scan
  obtain ⟨failed, told⟩ := offence.nest_eq level
  exact ⟨rest, split, same.trans failed, told⟩

/-- What is read so far tells the place of the offence, so there is only one. -/
theorem FirstOffence.unique {text before before' : List Char} {fault fault' : ReadingFault}
    (first : FirstOffence text before fault) (first' : FirstOffence text before' fault') :
    before' = before ∧ fault' = fault := by
  obtain ⟨rest, split, failed, rfl⟩ := first.nest_eq
  obtain ⟨rest', split', failed', rfl⟩ := first'.nest_eq
  obtain rfl := Except.error.inj (failed.symm.trans failed')
  exact ⟨List.append_cancel_right (split'.symm.trans split), rfl⟩

theorem exists_firstOffence {text rest : List Char}
    (failed : nest [] [] (lexemes text) = .error rest) :
    ∃ before, text = before ++ rest ∧ FirstOffence text before (faultAt rest) := by
  obtain ends | ⟨depth, rest', fault, scan, offence⟩ := exists_scan _ 0 text (Nat.le_refl _)
  · obtain ⟨enclosing, level, opened, same⟩ := nest_of_scan ends
    rw [failed, List.length_eq_zero_iff.mp opened, lexemes_eq] at same
    cases same
  · obtain ⟨before, split⟩ := suffix_of_scan scan
    have first : FirstOffence text before fault := ⟨depth, rest', split.symm, scan, offence⟩
    obtain ⟨rest'', split', failed', told⟩ := first.nest_eq
    obtain rfl := Except.error.inj (failed'.symm.trans failed)
    exact ⟨before, split', told ▸ first⟩

theorem lineNumber_append (before rest : List Char) :
    lineNumber (before ++ rest) rest = 1 + before.count '\n' := by
  rw [lineNumber, List.length_append, Nat.add_sub_cancel, List.take_left, Nat.add_comm]

theorem readAll_eq_error_iff {document : Document} {text : String} {e : Error} :
    readAll document text = .error e ↔ ∃ rest, nest [] [] (lexemes text.toList) = .error rest ∧
      e = .unreadable document (lineNumber text.toList rest) (faultAt rest) := by
  rw [readAll]
  cases nest [] [] (lexemes text.toList) with
  | ok es => simp
  | error rest => simp [eq_comm]

/-- A text is read exactly if it has no offence. Otherwise it has one first offence, and the error
tells what it is, and on which line. -/
theorem readAll_tells_firstOffence (document : Document) (text : String) :
    (∀ e, readAll document text = .error e ↔ ∃ before fault,
      FirstOffence text.toList before fault ∧
        e = .unreadable document (1 + before.count '\n') fault) ∧
    ((∃ e, readAll document text = .error e) ↔ ∃! offence : List Char × ReadingFault,
      FirstOffence text.toList offence.1 offence.2) ∧
    ((∃ es, readAll document text = .ok es) ↔
      ∀ before fault, ¬FirstOffence text.toList before fault) := by
  have told (e : Error) : readAll document text = .error e ↔ ∃ before fault,
      FirstOffence text.toList before fault ∧
        e = .unreadable document (1 + before.count '\n') fault := by
    rw [readAll_eq_error_iff]
    constructor
    · rintro ⟨rest, failed, rfl⟩
      obtain ⟨before, split, first⟩ := exists_firstOffence failed
      exact ⟨before, faultAt rest, first, by rw [split, lineNumber_append]⟩
    · rintro ⟨before, fault, first, rfl⟩
      obtain ⟨rest, split, failed, rfl⟩ := first.nest_eq
      exact ⟨rest, failed, by rw [split, lineNumber_append]⟩
  refine ⟨told, ⟨?_, ?_⟩, ?_, ?_⟩
  · rintro ⟨e, failed⟩
    obtain ⟨before, fault, first, -⟩ := (told e).mp failed
    refine ⟨(before, fault), first, ?_⟩
    rintro ⟨before', fault'⟩ first'
    rw [Prod.mk.injEq]
    exact FirstOffence.unique first first'
  · rintro ⟨⟨before, fault⟩, first, -⟩
    exact ⟨_, (told _).mpr ⟨before, fault, first, rfl⟩⟩
  · rintro ⟨es, read⟩ before fault first
    have failed := (told _).mpr ⟨before, fault, first, rfl⟩
    cases read.symm.trans failed
  · intro none
    cases read : readAll document text with
    | ok es => exact ⟨es, rfl⟩
    | error e =>
      obtain ⟨before, fault, first, -⟩ := (told e).mp read
      exact absurd first (none before fault)

end Text
end TypedPlanning
