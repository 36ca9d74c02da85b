import TypedPlanning.Error

/-! Characters and stretches of text that carry no meaning of their own, letter case, and the
counting of lines. Filler is any run of spaces and comments. A comment runs from a semicolon to the
end of its line or of the text; a carriage return inside it must belong to the end of the line. -/

namespace TypedPlanning
namespace Text

def isSpace (c : Char) : Bool := c == ' ' || c == '\t' || c == '\r' || c == '\n'

/-- White space in the sense of Unicode. -/
def isBlank (c : Char) : Bool :=
  let n := c.toNat
  (0x9 ≤ n && n ≤ 0xD) || n == 0x20 || n == 0x85 || n == 0xA0 || n == 0x1680 ||
    (0x2000 ≤ n && n ≤ 0x200A) || n == 0x2028 || n == 0x2029 || n == 0x202F || n == 0x205F ||
    n == 0x3000

theorem isBlank_of_isSpace {c : Char} (space : isSpace c = true) : isBlank c = true := by
  simp only [isSpace, Bool.or_eq_true, beq_iff_eq] at space
  rcases space with ((rfl | rfl) | rfl) | rfl <;> decide

def dropSpaces (cs : List Char) : List Char := cs.dropWhile isSpace

/-- What is left after the filler at the front. Inside a comment the text from its semicolon on is
kept, and it is where skipping stops if the comment turns out to be none. -/
def skipFillerFrom : Option (List Char) → List Char → List Char
  | _, [] => []
  | none, c :: cs =>
    if isSpace c then skipFillerFrom none cs
    else if c = ';' then skipFillerFrom (some (c :: cs)) cs
    else c :: cs
  | some start, c :: cs =>
    if c = '\n' then skipFillerFrom none cs
    else if c = '\r' then if cs.head? = some '\n' then skipFillerFrom none cs else start
    else skipFillerFrom (some start) cs

def skipFiller (cs : List Char) : List Char := skipFillerFrom none cs

theorem length_skipFillerFrom_le (cs : List Char) (n : Nat) (fits : cs.length ≤ n) :
    ∀ start : Option (List Char), (∀ t, start = some t → t.length ≤ n) →
      (skipFillerFrom start cs).length ≤ n := by
  induction cs with
  | nil => intro start _; cases start <;> simp [skipFillerFrom]
  | cons c cs ih =>
    have shorter : cs.length ≤ n := Nat.le_trans (Nat.le_succ _) fits
    intro start bound
    cases start with
    | none =>
      unfold skipFillerFrom
      split
      · exact ih shorter none (by simp)
      · split
        · exact ih shorter _ (by rintro t ⟨⟩; exact fits)
        · exact fits
    | some t =>
      unfold skipFillerFrom
      split
      · exact ih shorter none (by simp)
      · split
        · split
          · exact ih shorter none (by simp)
          · exact bound t rfl
        · exact ih shorter _ bound

theorem length_skipFiller_le (cs : List Char) : (skipFiller cs).length ≤ cs.length :=
  length_skipFillerFrom_le cs _ (Nat.le_refl _) none (by simp)

section Stretches
variable {kind : Char → Bool} {cs rest : List Char}

theorem takeWhile_append_of_ends (inside : ∀ c ∈ cs, kind c = true)
    (ends : ∀ c ∈ rest.head?, kind c = false) : (cs ++ rest).takeWhile kind = cs := by
  rw [List.takeWhile_append_of_pos inside]
  cases rest with
  | nil => rw [List.takeWhile_nil, List.append_nil]
  | cons c rest => rw [List.takeWhile_cons_of_neg (by simp [ends c rfl]), List.append_nil]

theorem dropWhile_append_of_ends (inside : ∀ c ∈ cs, kind c = true)
    (ends : ∀ c ∈ rest.head?, kind c = false) : (cs ++ rest).dropWhile kind = rest := by
  rw [List.dropWhile_append_of_pos inside]
  cases rest with
  | nil => rfl
  | cons c rest => rw [List.dropWhile_cons_of_neg (by simp [ends c rfl])]

theorem ends_dropWhile (kind : Char → Bool) (cs : List Char) :
    ∀ c ∈ (cs.dropWhile kind).head?, kind c = false := by
  intro c hc
  have ended := List.head?_dropWhile_not kind cs
  rw [Option.mem_def.mp hc] at ended
  exact ended

end Stretches

def lower (text : String) : String := .ofList (text.toList.map Char.toLower)

/-- The number of the line on which the rest of a text begins. -/
def lineNumber (text rest : List Char) : Nat :=
  (text.take (text.length - rest.length)).count '\n' + 1

/-- The first stretch without white space; empty if there is none. -/
def firstWord (cs : List Char) : List Char :=
  (cs.dropWhile isBlank).takeWhile (!isBlank ·)

end Text
end TypedPlanning
