import TypedPlanning.Text.Layout

/-! Words and parenthesised lists: how they are printed, and how a text is read as a sequence of
them. Reading goes from left to right over the lexemes of the text, so what it complains about is
the first place where no continuation could help. -/

namespace TypedPlanning
namespace Text

inductive Expression where
  | word (w : String)
  | list (es : List Expression)
deriving Repr

namespace Expression

mutual

/-- One space between neighbours, none inside a parenthesis. -/
def text : Expression → String
  | .word w => w
  | .list es => "(" ++ texts es ++ ")"

def texts : List Expression → String
  | [] => ""
  | [e] => e.text
  | e :: es => e.text ++ " " ++ texts es

end

/-- Keywords are compared without regard to the case of ASCII letters. -/
def isKeyword (keyword : String) : Expression → Bool
  | .word w => lower w == lower keyword
  | .list _ => false

def word? : Expression → Option String
  | .word w => some w
  | .list _ => none

def isList : Expression → Bool
  | .word _ => false
  | .list _ => true

def head? : Expression → Option String
  | .list (.word w :: _) => some w
  | _ => none

end Expression

def isWordChar (c : Char) : Bool := !isBlank c && c != '(' && c != ')' && c != ';'

inductive Lexeme where
  | opening
  | closing
  | word (w : String)
  | stray
deriving DecidableEq, Repr

/-- The lexemes of a text, each with the text from its first character on. A character that begins
neither a lexeme nor filler is a stray one, and the last. -/
def lexemes (text : List Char) : List (Lexeme × List Char) :=
  match found : skipFiller text with
  | [] => []
  | c :: cs =>
    have : cs.length < text.length := by
      have shorter := length_skipFiller_le text
      rw [found] at shorter
      exact shorter
    if c = '(' then (.opening, c :: cs) :: lexemes cs
    else if c = ')' then (.closing, c :: cs) :: lexemes cs
    else if isWordChar c then
      have := (List.dropWhile_suffix isWordChar (l := cs)).length_le
      (.word (.ofList (c :: cs.takeWhile isWordChar)), c :: cs) :: lexemes (cs.dropWhile isWordChar)
    else [(.stray, c :: cs)]
termination_by text.length

/-- Builds expressions from lexemes. Of each list that is still open, and last of the outermost
level, the expressions so far are kept in reverse. Where it fails, the rest of the text is the
reason. -/
def nest (enclosing : List (List Expression)) (level : List Expression) :
    List (Lexeme × List Char) → Except (List Char) (List Expression)
  | [] => if enclosing.isEmpty then .ok level.reverse else .error []
  | (.opening, _) :: rest => nest (level :: enclosing) [] rest
  | (.closing, here) :: rest =>
    match enclosing with
    | [] => .error here
    | outer :: enclosing => nest enclosing (.list level.reverse :: outer) rest
  | (.word w, _) :: rest => nest enclosing (.word w :: level) rest
  | (.stray, here) :: _ => .error here

def faultAt : List Char → ReadingFault
  | [] => .unclosed
  | c :: cs => if c = ')' then .unbalanced else .unexpectedWord (.ofList (firstWord (c :: cs)))

def readAll (document : Document) (text : String) : Except Error (List Expression) :=
  match nest [] [] (lexemes text.toList) with
  | .ok es => .ok es
  | .error rest => .error (.unreadable document (lineNumber text.toList rest) (faultAt rest))

def readOne (document : Document) (text : String) : Except Error Expression := do
  match ← readAll document text with
  | [e] => return e
  | [] => throw (.unreadable document (lineNumber text.toList []) .noExpression)
  | _ => throw (.unreadable document 1 .severalExpressions)

end Text
end TypedPlanning
