import TypedPlanning.Fact
import Std.Data.ExtTreeSet

/-! Sets of facts, and the sorted texts by which they cross the boundary of the library. Two states
are equal when they hold the same facts, whatever the order in which those came. -/

namespace TypedPlanning

abbrev State := Std.ExtTreeSet Fact

abbrev TextState := Std.ExtTreeSet String

namespace State

/-- Objects that differ in their type alone print alike, so a state may have fewer texts than
facts. -/
def texts (s : State) : TextState := Std.ExtTreeSet.ofList (s.toList.map Fact.text)

theorem ext {s t : State} (same : ∀ p, p ∈ s ↔ p ∈ t) : s = t := Std.ExtTreeSet.ext_mem same

theorem mem_texts {s : State} {text : String} : text ∈ s.texts ↔ ∃ p ∈ s, p.text = text := by
  simp [texts, Std.ExtTreeSet.mem_ofList]

end State
end TypedPlanning
