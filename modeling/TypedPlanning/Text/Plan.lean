import TypedPlanning.Text.Call

/-! A written plan is a sequence of bracketed calls, with or without one more pair of brackets
around it. Filler may stand before each call and around the whole. -/

namespace TypedPlanning
namespace Text
namespace Call

theorem length_takeArguments_le (cs : List Char) : (takeArguments cs).2.length ≤ cs.length := by
  fun_induction takeArguments cs with
  | case1 cs _ name rest found shorter names rest' eq ih =>
    rw [eq] at ih
    exact Nat.le_trans ih (Nat.le_of_lt shorter)
  | case2 => exact Nat.le_refl _
  | case3 => exact Nat.le_refl _

theorem length_lt_of_takeBare {cs rest : List Char} {call : Call}
    (found : takeBare cs = some (call, rest)) : rest.length < cs.length := by
  simp only [takeBare, Option.bind_eq_bind, Option.pure_def, Option.bind_eq_some_iff,
    Option.some.injEq, Prod.mk.injEq, Prod.exists] at found
  obtain ⟨name, middle, taken, -, rfl⟩ := found
  exact Nat.lt_of_le_of_lt (length_takeArguments_le middle) (length_lt_of_takeName taken)

theorem length_lt_of_takeClosing {cs rest : List Char} (found : takeClosing cs = some rest) :
    rest.length < cs.length := by
  unfold takeClosing at found
  split at found <;> simp_all

theorem length_lt_of_takeBracketed {cs rest : List Char} {call : Call}
    (found : takeBracketed cs = some (call, rest)) : rest.length < cs.length := by
  unfold takeBracketed at found
  split at found
  · simp only [Option.bind_eq_bind, Option.pure_def, Option.bind_eq_some_iff, Option.some.injEq,
      Prod.mk.injEq, Prod.exists] at found
    rename_i inner
    obtain ⟨c, middle, taken, after, closed, -, rfl⟩ := found
    have h₁ := length_lt_of_takeBare taken
    have h₂ := length_lt_of_takeClosing closed
    have h₃ : (dropSpaces inner).length ≤ inner.length := (List.dropWhile_suffix _).length_le
    have h₄ : (dropSpaces middle).length ≤ middle.length := (List.dropWhile_suffix _).length_le
    simp only [List.length_cons]
    omega
  · simp at found

def takeAll (cs : List Char) : List Call × List Char :=
  match found : takeBracketed (skipFiller cs) with
  | some (call, rest) =>
    have : rest.length < cs.length :=
      Nat.lt_of_lt_of_le (length_lt_of_takeBracketed found) (length_skipFiller_le cs)
    let (calls, rest) := takeAll rest
    (call :: calls, rest)
  | none => ([], cs)
termination_by cs.length

/-- Calls in one more pair of brackets. Before the closing one there may be spaces. -/
def takeWrapped : List Char → Option (List Call × List Char)
  | '(' :: cs =>
    let (calls, rest) := takeAll (dropSpaces cs)
    (takeClosing (dropSpaces rest)).map (calls, ·)
  | _ => none

def readPlan (text : String) : Except Error (List Call) :=
  let cs := skipFiller text.toList
  let (calls, rest) := (takeWrapped cs).getD (takeAll cs)
  match skipFiller rest with
  | [] => .ok calls
  | rest => .error (.unreadable .plan (lineNumber text.toList rest) .notCalls)

end Call
end Text
end TypedPlanning
