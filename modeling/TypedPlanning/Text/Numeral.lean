import TypedPlanning.Text.Layout

/-! Decimal numerals: digits with at most one point among or around them, optionally signed and
optionally followed by a power of ten. The words for infinity and for an undefined number count as
numerals. -/

namespace TypedPlanning
namespace Text

def dropSign : List Char → List Char
  | [] => []
  | c :: cs => if c = '+' ∨ c = '-' then cs else c :: cs

/-- Nothing, or the letter `e` with a signed whole number. -/
def isExponent : List Char → Bool
  | [] => true
  | c :: cs => (c == 'e' || c == 'E') && !(dropSign cs).isEmpty && (dropSign cs).all Char.isDigit

def splitDigits (cs : List Char) : List Char × List Char :=
  (cs.takeWhile Char.isDigit, cs.dropWhile Char.isDigit)

def isUnsigned (cs : List Char) : Bool :=
  match splitDigits cs with
  | (whole, '.' :: rest) =>
    let (fraction, rest) := splitDigits rest
    !(whole.isEmpty && fraction.isEmpty) && isExponent rest
  | (whole, rest) => !whole.isEmpty && isExponent rest

def isNumeral (text : String) : Bool :=
  let cs := dropSign text.toList
  let word := lower (.ofList cs)
  word == "inf" || word == "infinity" || word == "nan" || isUnsigned cs

end Text
end TypedPlanning
