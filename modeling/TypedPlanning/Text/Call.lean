import TypedPlanning.Text.Layout

/-! Names with arguments, as in `pick-up a`: written action calls and written facts. A call may
stand in one pair of brackets. -/

namespace TypedPlanning
namespace Text

def isNameChar (c : Char) : Bool := c.isAlphanum || c == '-' || c == '_'

/-- A letter and all that may follow in a name. Letters and digits are those of ASCII. -/
def takeName : List Char → Option (String × List Char)
  | [] => none
  | c :: cs =>
    if c.isAlpha then
      some (.ofList (c :: cs.takeWhile isNameChar), cs.dropWhile isNameChar)
    else none

def isName (text : String) : Bool :=
  match takeName text.toList with
  | some (_, rest) => rest.isEmpty
  | none => false

structure Call where
  name : String
  arguments : List String
deriving DecidableEq, Repr

namespace Call

theorem length_lt_of_takeName {cs rest : List Char} {name : String}
    (found : takeName cs = some (name, rest)) : rest.length < cs.length := by
  cases cs with
  | nil => simp [takeName] at found
  | cons c cs =>
    have := (List.dropWhile_suffix isNameChar (l := cs)).length_le
    simp only [takeName] at found
    split at found
    · simp only [Option.some.injEq, Prod.mk.injEq] at found
      obtain ⟨-, rfl⟩ := found
      exact Nat.lt_succ_of_le this
    · simp at found

/-- Names with at least one space before each. Spaces that no name follows are left. -/
def takeArguments (cs : List Char) : List String × List Char :=
  if (cs.head?.any isSpace) = true then
    match found : takeName (dropSpaces cs) with
    | some (name, rest) =>
      have : rest.length < cs.length := Nat.lt_of_lt_of_le (length_lt_of_takeName found)
        (List.dropWhile_suffix isSpace).length_le
      let (names, rest) := takeArguments rest
      (name :: names, rest)
    | none => ([], cs)
  else ([], cs)
termination_by cs.length

def takeBare (cs : List Char) : Option (Call × List Char) := do
  let (name, rest) ← takeName cs
  let (arguments, rest) := takeArguments rest
  return (⟨name, arguments⟩, rest)

def takeClosing : List Char → Option (List Char)
  | ')' :: cs => some cs
  | _ => none

def takeBracketed : List Char → Option (Call × List Char)
  | '(' :: cs => do
    let (call, rest) ← takeBare (dropSpaces cs)
    return (call, ← takeClosing (dropSpaces rest))
  | _ => none

/-- A single call in brackets or without, with spaces around it. -/
def read (text : String) : Except Error Call :=
  let cs := dropSpaces text.toList
  match takeBracketed cs <|> takeBare cs with
  | some (call, rest) =>
    if (dropSpaces rest).isEmpty then .ok call else .error (.call (.malformed text))
  | none => .error (.call (.malformed text))

end Call
end Text
end TypedPlanning
