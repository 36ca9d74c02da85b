import Mathlib.Data.List.TakeWhile
import TypedPlanning.Text.Expression

/-! The texts that are read as a given list of expressions. A layout has the lexemes of the
expressions in order and filler in all other places, and between two words the filler may not be
missing. Reading accepts the layouts and nothing else, and what is printed is a layout. -/

namespace TypedPlanning
namespace Text

def IsWord (w : String) : Prop := w ≠ "" ∧ ∀ c ∈ w.toList, isWordChar c = true

instance (w : String) : Decidable (IsWord w) :=
  decidable_of_iff (w ≠ "" ∧ w.toList.all isWordChar = true) (by rw [IsWord, List.all_eq_true])

/-- A place where a comment is over. The text itself ends only behind the `last` filler. -/
def EndsLine (last : Bool) (cs : List Char) : Prop :=
  ['\n'] <+: cs ∨ ['\r', '\n'] <+: cs ∨ last = true ∧ cs = []

inductive Filler (last : Bool) : List Char → Prop
  | nil : Filler last []
  | space {c cs} (blank : isSpace c = true) (filler : Filler last cs) : Filler last (c :: cs)
  | comment {body cs} (oneLine : ∀ c ∈ body, c ≠ '\n' ∧ c ≠ '\r') (ends : EndsLine last cs)
      (filler : Filler last cs) : Filler last (';' :: (body ++ cs))

namespace Lexeme

inductive Spelled : Lexeme → List Char → Prop
  | opening : Spelled .opening ['(']
  | closing : Spelled .closing [')']
  | word {w} (proper : IsWord w) : Spelled (.word w) w.toList

def isWord : Lexeme → Bool
  | .word _ => true
  | _ => false

end Lexeme

/-- Texts with the given lexemes. Before the first of them a word may already stand. -/
inductive Laid : Bool → List Lexeme → List Char → Prop
  | finish {afterWord gap} (filler : Filler true gap) : Laid afterWord [] gap
  | lexeme {afterWord gap l chars ls rest} (filler : Filler false gap)
      (apart : afterWord = true → l.isWord = true → gap ≠ []) (spelled : l.Spelled chars)
      (laid : Laid l.isWord ls rest) : Laid afterWord (l :: ls) (gap ++ (chars ++ rest))

namespace Expression

mutual

def lexemes : Expression → List Lexeme
  | .word w => [.word w]
  | .list es => .opening :: (lexemesOf es ++ [.closing])

def lexemesOf : List Expression → List Lexeme
  | [] => []
  | e :: es => e.lexemes ++ lexemesOf es

end

end Expression

def IsLayout (es : List Expression) (text : String) : Prop :=
  Laid false (Expression.lexemesOf es) text.toList

theorem isWordChar_of_isSpace {c : Char} (space : isSpace c = true) : isWordChar c = false := by
  simp [isWordChar, isBlank_of_isSpace space]

theorem Filler.not_isWordChar_head {last : Bool} {gap : List Char} (filler : Filler last gap) :
    ∀ c ∈ gap.head?, isWordChar c = false := by
  cases filler with
  | nil => rintro _ ⟨⟩
  | space blank => rintro _ ⟨⟩; exact isWordChar_of_isSpace blank
  | comment => rintro _ ⟨⟩; decide

theorem skipFillerFrom_body (start : List Char) {body : List Char}
    (oneLine : ∀ c ∈ body, c ≠ '\n' ∧ c ≠ '\r') (cs : List Char) :
    skipFillerFrom (some start) (body ++ cs) = skipFillerFrom (some start) cs := by
  induction body with
  | nil => rfl
  | cons c body ih =>
    obtain ⟨notLf, notCr⟩ := oneLine c List.mem_cons_self
    rw [List.cons_append, skipFillerFrom, if_neg notLf, if_neg notCr]
    exact ih fun c hc => oneLine c (List.mem_cons_of_mem _ hc)

theorem skipFillerFrom_space {c : Char} (blank : isSpace c = true) (cs : List Char) :
    skipFillerFrom none (c :: cs) = skipFillerFrom none cs := by
  rw [skipFillerFrom, if_pos blank]

/-- The end of the line is filler itself, so it makes no difference whether it is still read as
part of the comment. -/
theorem skipFillerFrom_endsLine (start : List Char) {last : Bool} {cs : List Char}
    (ends : EndsLine last cs) {rest : List Char} (final : last = true → rest = []) :
    skipFillerFrom (some start) (cs ++ rest) = skipFillerFrom none (cs ++ rest) := by
  obtain ⟨cs, rfl⟩ | ⟨cs, rfl⟩ | ⟨isLast, rfl⟩ := ends
  · exact (skipFillerFrom_space (by decide) _).symm
  · exact (skipFillerFrom_space (by decide) _).symm
  · rw [final isLast]
    rfl

theorem Filler.skipFiller_append {last : Bool} {gap rest : List Char} (filler : Filler last gap)
    (final : last = true → rest = []) : skipFiller (gap ++ rest) = skipFiller rest := by
  induction filler with
  | nil => rfl
  | space blank _ ih => exact (skipFillerFrom_space blank _).trans ih
  | @comment body cs oneLine ends _ ih =>
    calc skipFiller (';' :: (body ++ cs) ++ rest)
      _ = skipFillerFrom (some (';' :: (body ++ cs ++ rest))) (body ++ cs ++ rest) := rfl
      _ = skipFillerFrom (some (';' :: (body ++ cs ++ rest))) (cs ++ rest) := by
        rw [List.append_assoc body, skipFillerFrom_body _ oneLine]
      _ = skipFiller (cs ++ rest) := skipFillerFrom_endsLine _ ends final
      _ = skipFiller rest := ih

theorem Filler.skipFiller_eq_nil {gap : List Char} (filler : Filler true gap) :
    skipFiller gap = [] := by
  rw [← List.append_nil gap, filler.skipFiller_append fun _ => rfl]
  rfl

theorem skipFiller_cons {c : Char} (cs : List Char) (notSpace : isSpace c = false)
    (notComment : c ≠ ';') : skipFiller (c :: cs) = c :: cs := by
  simp [skipFiller, skipFillerFrom, notSpace, notComment]

/-- Filler goes as far as skipping does. If skipping stops at a comment that is none, the filler
ends in front of it. -/
theorem exists_filler_append (cs : List Char) :
    (∃ gap, cs = gap ++ skipFillerFrom none cs ∧ Filler (skipFillerFrom none cs).isEmpty gap) ∧
    ∀ body, (∀ c ∈ body, c ≠ '\n' ∧ c ≠ '\r') → ∀ start, start = ';' :: (body ++ cs) →
      ∃ gap, start = gap ++ skipFillerFrom (some start) cs ∧
        Filler (skipFillerFrom (some start) cs).isEmpty gap := by
  -- Skipping enters a comment and leaves it again, so each half needs the other one for the rest.
  induction cs with
  | nil =>
    refine ⟨⟨[], rfl, .nil⟩, ?_⟩
    rintro body oneLine _ rfl
    exact ⟨_, (List.append_nil _).symm, .comment oneLine (.inr (.inr ⟨rfl, rfl⟩)) .nil⟩
  | cons c cs ih =>
    obtain ⟨⟨gap, split, filler⟩, comment⟩ := ih
    constructor
    · rw [skipFillerFrom]
      split_ifs with space semicolon
      · exact ⟨c :: gap, congrArg (c :: ·) split, .space space filler⟩
      · subst semicolon
        exact comment [] (by simp) _ rfl
      · exact ⟨[], rfl, .nil⟩
    · rintro body oneLine start rfl
      rw [skipFillerFrom]
      split_ifs with lf cr next
      · subst lf
        refine ⟨';' :: (body ++ '\n' :: gap), ?_, .comment oneLine (.inl ⟨gap, rfl⟩) ?_⟩
        · rw [List.cons_append, List.append_assoc, List.cons_append, ← split]
        · exact .space (by decide) filler
      · subst cr
        obtain ⟨cs, rfl⟩ : ∃ t, cs = '\n' :: t := List.head?_eq_some_iff.mp next
        -- The comment ends before the CR only if the LF is skipped with it.
        obtain ⟨gap, rfl⟩ : ∃ t, gap = '\n' :: t := by
          cases gap with
          | nil =>
            have shorter := length_skipFiller_le cs
            rw [skipFillerFrom_space (by decide)] at split
            rw [skipFiller, ← List.nil_append (skipFillerFrom none cs), ← split] at shorter
            exact absurd shorter (by simp)
          | cons d gap => exact ⟨gap, by rw [(List.cons.inj split).1]⟩
        refine ⟨';' :: (body ++ '\r' :: '\n' :: gap), ?_, ?_⟩
        · rw [List.cons_append, List.append_assoc, List.cons_append, ← split]
        · exact .comment oneLine (.inr (.inl ⟨gap, rfl⟩)) (.space (by decide) filler)
      · exact ⟨[], rfl, .nil⟩
      · refine comment (body ++ [c]) ?_ _ (by simp)
        rintro d hd
        obtain hd | hd := List.mem_append.mp hd
        · exact oneLine d hd
        · rw [List.mem_singleton.mp hd]
          exact ⟨lf, cr⟩

theorem exists_filler_of_skipFiller {cs rest : List Char} (skipped : skipFiller cs = rest) :
    ∃ gap, cs = gap ++ rest ∧ Filler rest.isEmpty gap := by
  subst skipped
  exact (exists_filler_append cs).1

namespace Lexeme.Spelled

variable {l : Lexeme} {chars : List Char}

theorem exists_head (spelled : l.Spelled chars) : ∃ c cs, chars = c :: cs ∧
    isSpace c = false ∧ c ≠ ';' ∧ isWordChar c = l.isWord := by
  cases spelled with
  | opening => exact ⟨'(', [], rfl, by decide, by decide, by decide⟩
  | closing => exact ⟨')', [], rfl, by decide, by decide, by decide⟩
  | @word w proper =>
    obtain ⟨c, cs, eq⟩ : ∃ c cs, w.toList = c :: cs :=
      List.exists_cons_of_ne_nil fun empty => proper.1 (String.toList_eq_nil_iff.mp empty)
    have inWord : isWordChar c = true := proper.2 c (eq ▸ List.mem_cons_self)
    refine ⟨c, cs, eq, ?_, ?_, inWord⟩
    · rw [← Bool.not_eq_true]
      exact fun space => absurd inWord (Bool.not_eq_true _ ▸ isWordChar_of_isSpace space)
    · rintro rfl
      exact absurd inWord (by decide)

theorem skipFiller_append (spelled : l.Spelled chars) (rest : List Char) :
    skipFiller (chars ++ rest) = chars ++ rest := by
  obtain ⟨c, cs, rfl, notSpace, notComment, -⟩ := spelled.exists_head
  exact skipFiller_cons _ notSpace notComment

end Lexeme.Spelled

theorem lexemes_eq (cs : List Char) : lexemes cs =
    match skipFiller cs with
    | [] => []
    | c :: rest =>
      if c = '(' then (.opening, c :: rest) :: lexemes rest
      else if c = ')' then (.closing, c :: rest) :: lexemes rest
      else if isWordChar c then
        (.word (.ofList (c :: rest.takeWhile isWordChar)), c :: rest) ::
          lexemes (rest.dropWhile isWordChar)
      else [(.stray, c :: rest)] := by
  rw [lexemes]
  split <;> simp [*]

def lexemesIn (cs : List Char) : List Lexeme := (lexemes cs).map Prod.fst

section

variable {cs rest : List Char}

theorem lexemesIn_nil (skipped : skipFiller cs = []) : lexemesIn cs = [] := by
  rw [lexemesIn, lexemes_eq, skipped]
  rfl

theorem lexemesIn_opening (skipped : skipFiller cs = '(' :: rest) :
    lexemesIn cs = .opening :: lexemesIn rest := by
  rw [lexemesIn, lexemes_eq, skipped]
  rfl

theorem lexemesIn_closing (skipped : skipFiller cs = ')' :: rest) :
    lexemesIn cs = .closing :: lexemesIn rest := by
  rw [lexemesIn, lexemes_eq, skipped]
  rfl

theorem isWordChar_ne {c : Char} (inWord : isWordChar c = true) : c ≠ '(' ∧ c ≠ ')' := by
  constructor <;> (rintro rfl; exact absurd inWord (by decide))

theorem lexemesIn_word {c : Char} (skipped : skipFiller cs = c :: rest)
    (inWord : isWordChar c = true) :
    lexemesIn cs = .word (.ofList (c :: rest.takeWhile isWordChar)) ::
      lexemesIn (rest.dropWhile isWordChar) := by
  rw [lexemesIn, lexemes_eq, skipped]
  simp only [if_neg (isWordChar_ne inWord).1, if_neg (isWordChar_ne inWord).2, if_pos inWord]
  rfl

theorem lexemesIn_stray {c : Char} (skipped : skipFiller cs = c :: rest) (notOpening : c ≠ '(')
    (notClosing : c ≠ ')') (notWord : ¬isWordChar c = true) : lexemesIn cs = [.stray] := by
  rw [lexemesIn, lexemes_eq, skipped]
  simp only [if_neg notOpening, if_neg notClosing, if_neg notWord]
  rfl

end

namespace Laid

variable {afterWord : Bool} {ls : List Lexeme} {cs : List Char}

theorem weaken (laid : Laid true ls cs) : Laid afterWord ls cs := by
  cases laid with
  | finish filler => exact .finish filler
  | lexeme filler apart spelled laid => exact .lexeme filler (fun _ => apart rfl) spelled laid

theorem spaced (laid : Laid afterWord ls cs) : Laid true ls (' ' :: cs) := by
  cases laid with
  | finish filler => exact .finish (.space (by decide) filler)
  | @lexeme _ gap _ _ _ _ filler _ spelled laid =>
    have filler : Filler false (' ' :: gap) := .space (by decide) filler
    exact .lexeme filler (fun _ _ => List.cons_ne_nil _ _) spelled laid

theorem spelled_of_mem (laid : Laid afterWord ls cs) {l : Lexeme} (hl : l ∈ ls) :
    ∃ chars, l.Spelled chars := by
  induction laid with
  | finish => cases hl
  | lexeme _ _ spelled _ ih =>
    obtain rfl | hl := List.mem_cons.mp hl
    · exact ⟨_, spelled⟩
    · exact ih hl

theorem not_isWordChar_head (laid : Laid true ls cs) : ∀ c ∈ cs.head?, isWordChar c = false := by
  cases laid with
  | finish filler => exact filler.not_isWordChar_head
  | @lexeme _ gap l chars _ rest filler apart spelled laid =>
    cases gap with
    | cons d gap => exact filler.not_isWordChar_head
    | nil =>
      obtain ⟨c, cs, rfl, -, -, begins⟩ := spelled.exists_head
      rintro _ ⟨⟩
      rw [begins, ← Bool.not_eq_true]
      exact fun isWord => apart rfl isWord rfl

theorem lexemesIn_eq (laid : Laid afterWord ls cs) : lexemesIn cs = ls := by
  induction laid with
  | finish filler => exact lexemesIn_nil filler.skipFiller_eq_nil
  | @lexeme _ gap l chars ls rest filler _ spelled laid ih =>
    have skipped : skipFiller (gap ++ (chars ++ rest)) = chars ++ rest := by
      rw [filler.skipFiller_append (by simp), spelled.skipFiller_append]
    cases spelled with
    | opening => exact (lexemesIn_opening skipped).trans (congrArg _ ih)
    | closing => exact (lexemesIn_closing skipped).trans (congrArg _ ih)
    | @word w proper =>
      have ends : ∀ d ∈ rest.head?, isWordChar d = false := not_isWordChar_head laid
      obtain ⟨c, cs, eq, -, -, -⟩ := (Lexeme.Spelled.word proper).exists_head
      have inWord : ∀ d ∈ c :: cs, isWordChar d = true := fun d hd => proper.2 d (eq ▸ hd)
      have whole : String.ofList (c :: cs) = w := by rw [← eq, String.ofList_toList]
      rw [eq, List.cons_append] at skipped ⊢
      obtain ⟨first, others⟩ := List.forall_mem_cons.mp inWord
      rw [lexemesIn_word skipped first, takeWhile_append_of_ends others ends,
        dropWhile_append_of_ends others ends, whole, ih]

end Laid

/-- Unless a stray character is found. After a word the text goes on with no character of one. -/
theorem laid_lexemesIn (n : Nat) : ∀ cs : List Char, cs.length ≤ n → ∀ afterWord : Bool,
    (∀ c ∈ cs.head?, afterWord = true → isWordChar c = false) → .stray ∉ lexemesIn cs →
      Laid afterWord (lexemesIn cs) cs := by
  -- What follows a lexeme need not be the tail of the text, but it is shorter.
  induction n with
  | zero =>
    intro cs short afterWord _ _
    rw [List.length_eq_zero_iff.mp (Nat.le_zero.mp short), lexemesIn_nil rfl]
    exact .finish .nil
  | succ n ih =>
    intro cs short afterWord apart noStray
    match skipped : skipFiller cs with
    | [] =>
      obtain ⟨gap, rfl, filler⟩ := exists_filler_of_skipFiller skipped
      rw [lexemesIn_nil skipped, List.append_nil]
      exact .finish filler
    | c :: rest =>
      obtain ⟨gap, rfl, filler⟩ := exists_filler_of_skipFiller skipped
      have shorter : rest.length ≤ n := by
        simp only [List.length_append, List.length_cons] at short
        omega
      by_cases opening : c = '('
      · subst opening
        rw [lexemesIn_opening skipped] at noStray ⊢
        exact .lexeme filler (by simp [Lexeme.isWord]) .opening
          (ih rest shorter false (by simp) (List.not_mem_of_not_mem_cons noStray))
      by_cases closing : c = ')'
      · subst closing
        rw [lexemesIn_closing skipped] at noStray ⊢
        exact .lexeme filler (by simp [Lexeme.isWord]) .closing
          (ih rest shorter false (by simp) (List.not_mem_of_not_mem_cons noStray))
      by_cases inWord : isWordChar c = true
      · rw [lexemesIn_word skipped inWord] at noStray ⊢
        have proper : IsWord (.ofList (c :: rest.takeWhile isWordChar)) := by
          refine ⟨by simp, ?_⟩
          simpa [inWord] using fun d => List.mem_takeWhile_imp
        have after : (rest.dropWhile isWordChar).length ≤ n :=
          Nat.le_trans (List.dropWhile_suffix isWordChar).length_le shorter
        have stops := ends_dropWhile isWordChar rest
        have laid := @Laid.lexeme afterWord _ _ _ _ _ filler ?_ (.word proper)
          (ih _ after true (fun d hd _ => stops d hd) (List.not_mem_of_not_mem_cons noStray))
        · rwa [String.toList_ofList, List.cons_append, List.takeWhile_append_dropWhile] at laid
        · rintro isAfterWord - rfl
          exact absurd (apart c rfl isAfterWord) (by simp [inWord])
      · rw [lexemesIn_stray skipped opening closing inWord] at noStray
        exact absurd (List.mem_singleton_self _) noStray

/-- The lexemes behind what is kept of the lists that are still open. -/
def lexemesSoFar : List (List Expression) → List Expression → List Lexeme
  | [], level => Expression.lexemesOf level.reverse
  | outer :: enclosing, level =>
    lexemesSoFar enclosing outer ++ .opening :: Expression.lexemesOf level.reverse

namespace Expression

theorem lexemesOf_append (es₁ es₂ : List Expression) :
    lexemesOf (es₁ ++ es₂) = lexemesOf es₁ ++ lexemesOf es₂ := by
  induction es₁ with
  | nil => rfl
  | cons e es₁ ih => simp only [List.cons_append, lexemesOf, ih, List.append_assoc]

theorem lexemes_subset {e : Expression} {es : List Expression} (he : e ∈ es) :
    e.lexemes ⊆ lexemesOf es := by
  induction es with
  | nil => cases he
  | cons e' es ih =>
    obtain rfl | he := List.mem_cons.mp he
    · exact List.subset_append_left _ _
    · exact List.subset_append_of_subset_right _ (ih he)

end Expression

theorem lexemesSoFar_cons (enclosing : List (List Expression)) (e : Expression)
    (level : List Expression) :
    lexemesSoFar enclosing (e :: level) = lexemesSoFar enclosing level ++ e.lexemes := by
  cases enclosing <;> simp [lexemesSoFar, Expression.lexemesOf_append, Expression.lexemesOf]

/-- Every step takes one lexeme from the text to what has been read so far. -/
theorem lexemes_of_nest {ls : List (Lexeme × List Char)} {es : List Expression} :
    ∀ {enclosing level}, nest enclosing level ls = .ok es →
      lexemesSoFar enclosing level ++ ls.map Prod.fst = Expression.lexemesOf es := by
  induction ls with
  | nil =>
    intro enclosing level nested
    cases enclosing with
    | nil => cases nested; exact List.append_nil _
    | cons => cases nested
  | cons l ls ih =>
    intro enclosing level nested
    obtain ⟨_ | _ | w | _, here⟩ := l
    · rw [← ih nested]
      simp [lexemesSoFar, Expression.lexemesOf]
    · cases enclosing with
      | nil => cases nested
      | cons outer enclosing =>
        rw [← ih nested, lexemesSoFar_cons]
        simp [lexemesSoFar, Expression.lexemes]
    · rw [← ih nested, lexemesSoFar_cons]
      simp [Expression.lexemes]
    · cases nested

mutual

theorem nest_lexemes (e : Expression) {ls : List (Lexeme × List Char)} {rest : List Lexeme}
    (enclosing : List (List Expression)) (level : List Expression)
    (split : ls.map Prod.fst = e.lexemes ++ rest) :
    ∃ ls', ls'.map Prod.fst = rest ∧ nest enclosing level ls = nest enclosing (e :: level) ls' := by
  match e with
  | .word w =>
    obtain ⟨⟨_, here⟩, ls', rfl, rfl, rest⟩ := List.map_eq_cons_iff.mp split
    exact ⟨ls', rest, rfl⟩
  | .list es =>
    rw [Expression.lexemes, List.cons_append, List.append_assoc] at split
    obtain ⟨⟨_, here⟩, ls₁, rfl, rfl, inner⟩ := List.map_eq_cons_iff.mp split
    obtain ⟨ls₂, split, inside⟩ := nest_lexemesOf es (level :: enclosing) [] inner
    obtain ⟨⟨_, there⟩, ls', rfl, rfl, rest⟩ := List.map_eq_cons_iff.mp split
    refine ⟨ls', rest, ?_⟩
    rw [nest, inside, nest, List.append_nil, List.reverse_reverse]

theorem nest_lexemesOf (es : List Expression) {ls : List (Lexeme × List Char)} {rest : List Lexeme}
    (enclosing : List (List Expression)) (level : List Expression)
    (split : ls.map Prod.fst = Expression.lexemesOf es ++ rest) :
    ∃ ls', ls'.map Prod.fst = rest ∧
      nest enclosing level ls = nest enclosing (es.reverse ++ level) ls' := by
  match es with
  | [] => exact ⟨ls, split, rfl⟩
  | e :: es =>
    rw [Expression.lexemesOf, List.append_assoc] at split
    obtain ⟨ls₁, split, first⟩ := nest_lexemes e enclosing level split
    obtain ⟨ls', rest, others⟩ := nest_lexemesOf es enclosing (e :: level) split
    refine ⟨ls', rest, ?_⟩
    rw [first, others, List.reverse_cons, List.append_assoc, List.singleton_append]

end

theorem nest_eq_ok_iff {ls : List (Lexeme × List Char)} {es : List Expression} :
    nest [] [] ls = .ok es ↔ ls.map Prod.fst = Expression.lexemesOf es := by
  refine ⟨lexemes_of_nest, fun split => ?_⟩
  rw [← List.append_nil (Expression.lexemesOf es)] at split
  obtain ⟨ls', rest, nested⟩ := nest_lexemesOf es [] [] split
  rw [nested, List.map_eq_nil_iff.mp rest, nest]
  simp

mutual

theorem stray_not_mem_lexemes (e : Expression) : Lexeme.stray ∉ e.lexemes := by
  match e with
  | .word w => simp [Expression.lexemes]
  | .list es => simp [Expression.lexemes, stray_not_mem_lexemesOf es]

theorem stray_not_mem_lexemesOf (es : List Expression) :
    Lexeme.stray ∉ Expression.lexemesOf es := by
  match es with
  | [] => simp [Expression.lexemesOf]
  | e :: es =>
    simp [Expression.lexemesOf, stray_not_mem_lexemes e, stray_not_mem_lexemesOf es]

end

namespace Expression

def Written (es : List Expression) : Prop := ∀ l ∈ lexemesOf es, ∃ chars, l.Spelled chars

section

variable {w : String} {e : Expression} {es es₁ es₂ : List Expression}

@[simp] theorem written_nil : Written [] := by simp [Written, lexemesOf]

@[simp] theorem written_append : Written (es₁ ++ es₂) ↔ Written es₁ ∧ Written es₂ := by
  simp only [Written, lexemesOf_append, List.mem_append, or_imp, forall_and]

theorem written_cons : Written (e :: es) ↔ Written [e] ∧ Written es :=
  @written_append [e] es

@[simp] theorem written_cons_cons {e' : Expression} :
    Written (e :: e' :: es) ↔ Written [e] ∧ Written (e' :: es) :=
  written_cons

@[simp] theorem written_word : Written [.word w] ↔ IsWord w := by
  simp only [Written, lexemesOf, lexemes, List.append_nil, List.mem_singleton, forall_eq]
  constructor
  · rintro ⟨_, ⟨⟩⟩
    assumption
  · exact fun proper => ⟨_, .word proper⟩

@[simp] theorem written_list : Written [.list es] ↔ Written es := by
  simp only [Written, lexemesOf, lexemes, List.append_nil, List.mem_cons, List.mem_append,
    List.not_mem_nil, or_false]
  constructor
  · exact fun spelled l hl => spelled l (.inr (.inl hl))
  · rintro spelled l (rfl | hl | rfl)
    · exact ⟨_, .opening⟩
    · exact spelled l hl
    · exact ⟨_, .closing⟩

theorem written_of_forall (spelled : ∀ e ∈ es, Written [e]) : Written es := by
  induction es with
  | nil => exact written_nil
  | cons e es ih =>
    obtain ⟨first, others⟩ := List.forall_mem_cons.mp spelled
    exact written_cons.mpr ⟨first, ih others⟩

theorem Written.of_mem (written : Written es) (he : e ∈ es) : Written [e] := by
  intro l hl
  rw [lexemesOf, lexemesOf, List.append_nil] at hl
  exact written l (lexemes_subset he hl)

end

end Expression

mutual

theorem laid_text (e : Expression) {ls : List Lexeme} {rest : List Char}
    (spelled : ∀ l ∈ e.lexemes, ∃ chars, l.Spelled chars) (laid : Laid true ls rest) :
    Laid false (e.lexemes ++ ls) (e.text.toList ++ rest) := by
  match e with
  | .word w =>
    obtain ⟨_, ⟨⟩⟩ := spelled _ (List.mem_singleton_self _)
    exact .lexeme .nil (by simp) (.word ‹_›) laid
  | .list es =>
    have closed : Laid true (.closing :: ls) (')' :: rest) :=
      .lexeme .nil (by simp [Lexeme.isWord]) .closing laid.weaken
    have inside := laid_texts es (fun l hl => spelled l (by simp [Expression.lexemes, hl])) closed
    have opened := @Laid.lexeme false _ _ _ _ _ .nil (by simp) .opening inside
    simpa [Expression.lexemes, Expression.text] using opened

theorem laid_texts (es : List Expression) {ls : List Lexeme} {rest : List Char}
    (spelled : ∀ l ∈ Expression.lexemesOf es, ∃ chars, l.Spelled chars)
    (laid : Laid true ls rest) :
    Laid false (Expression.lexemesOf es ++ ls) ((Expression.texts es).toList ++ rest) := by
  match es with
  | [] => simpa [Expression.lexemesOf, Expression.texts] using laid.weaken
  | [e] =>
    have only := laid_text e (fun l hl => spelled l (by simp [Expression.lexemesOf, hl])) laid
    simpa [Expression.lexemesOf, Expression.texts] using only
  | e :: e' :: es =>
    have others := laid_texts (e' :: es)
      (fun l hl => spelled l (List.mem_append_right _ hl)) laid
    have all := laid_text e (fun l hl => spelled l (List.mem_append_left _ hl)) others.spaced
    simpa [Expression.lexemesOf, Expression.texts] using all

end

theorem readAll_eq_ok_iff {document : Document} {text : String} {es : List Expression} :
    readAll document text = .ok es ↔ IsLayout es text := by
  have nested : readAll document text = .ok es ↔ nest [] [] (lexemes text.toList) = .ok es := by
    rw [readAll]
    split <;> simp_all
  rw [nested, nest_eq_ok_iff]
  refine ⟨fun read => ?_, fun laid => laid.lexemesIn_eq⟩
  rw [IsLayout, ← read]
  refine laid_lexemesIn _ _ (Nat.le_refl _) false (by simp) ?_
  rw [lexemesIn, read]
  exact stray_not_mem_lexemesOf es

theorem readAll_texts (document : Document) {es : List Expression}
    (written : Expression.Written es) : readAll document (Expression.texts es) = .ok es := by
  have laid := laid_texts es written (.finish .nil)
  rw [List.append_nil, List.append_nil] at laid
  exact readAll_eq_ok_iff.mpr laid

theorem readOne_text (document : Document) {e : Expression} (written : Expression.Written [e]) :
    readOne document e.text = .ok e := by
  have read : readAll document e.text = .ok [e] := readAll_texts document written
  rw [readOne, read]
  rfl

/-- Reading accepts the layouts of any expressions and nothing else. What it has read can be
printed, expression by expression, and is then read as it was. -/
theorem readAll_iff_isLayout (document : Document) (text : String) (es : List Expression) :
    (readAll document text = .ok es ↔ IsLayout es text) ∧
    (readAll document text = .ok es →
      ∀ e ∈ es, ∀ document', readAll document' e.text = .ok [e]) := by
  refine ⟨readAll_eq_ok_iff, fun read e he document' => ?_⟩
  have written : Expression.Written es := fun l hl => (readAll_eq_ok_iff.mp read).spelled_of_mem hl
  exact @readAll_texts document' [e] (written.of_mem he)

/-- A comment can do what a space does, and is not printed. -/
theorem readAll_commented :
    readAll .plan "(a;b\nc)" = .ok [.list [.word "a", .word "c"]] ∧
    readAll .domain "(a c)" = .ok [.list [.word "a", .word "c"]] := by
  have comment : Filler false [';', 'b', '\n'] :=
    @Filler.comment _ ['b'] ['\n'] (by simp) (.inl ⟨[], rfl⟩) (.space (by decide) .nil)
  have closed : Laid true [.closing] [')'] :=
    .lexeme .nil (by simp [Lexeme.isWord]) .closing (.finish .nil)
  have second : Laid true [.word "c", .closing] [';', 'b', '\n', 'c', ')'] :=
    .lexeme comment (by simp) (.word (by decide)) closed
  have first : Laid false [.word "a", .word "c", .closing] ['a', ';', 'b', '\n', 'c', ')'] :=
    .lexeme .nil (by simp) (.word (by decide)) second
  have layout : IsLayout [.list [.word "a", .word "c"]] "(a;b\nc)" :=
    .lexeme .nil (by simp) .opening first
  obtain ⟨reads, prints⟩ := readAll_iff_isLayout .plan "(a;b\nc)" [.list [.word "a", .word "c"]]
  exact ⟨reads.mpr layout, prints (reads.mpr layout) _ (List.mem_singleton_self _) .domain⟩

end Text
end TypedPlanning
