import TypedPlanning.Proofs.LeastClosure
import TypedPlanning.Proofs.Saturation

/-! How far the order of the rules matters. A rule that asks for the absence of a fact may be swept
before another rule derives that fact, and what it has derived then stays. So closing is independent
of the order where no rule asks for the absence of what one of the rules derives. It need not be
where one does, even if the rules depend on each other in one direction only. -/

namespace TypedPlanning
open Fallible

namespace Rule
variable {objects : ObjectTable} {r : Rule} {rules rules' : List Rule} {s s' t : State}
  {changed : Bool}

def derives (rules : List Rule) (name : String) : Bool := rules.any (·.name == name)

theorem derives_eq_false {name : String} :
    derives rules name = false ↔ ∀ r ∈ rules, r.name ≠ name := by
  simp [derives]

/-- Firing does not lead out of a state that the rule has nothing to add to, as long as that state
has no other facts over the predicates whose absence the body asks for. -/
theorem preserves_between (coherent : objects.Coherent) {names : String → Bool}
    (signed : r.body.signedOver names true = true) (quiet : (r.fire objects).run t = .ok false t)
    (framed : ∀ p ∈ t, names p.predicate = false → p ∈ s) :
    Update.Preserves (fun u => s ≤ u ∧ u ≤ t) (r.fire objects) := by
  rintro u u' ⟨above, below⟩ fired
  obtain ⟨new, ran⟩ := Update.result_eq_ok.mp fired
  refine ⟨above.trans (grows_fire coherent r u new u' ran).1, fun p hp => ?_⟩
  obtain hp | ⟨arguments, admitted, satisfied, denoted⟩ := (mem_fire coherent fired).mp hp
  · exact below p hp
  · have agree : ∀ q, names q.predicate = false → (q ∈ u ↔ q ∈ t) :=
      fun q other => ⟨below q, fun hq => above q (framed q hq other)⟩
    have later := Formula.satisfied_of_signedOver signed below agree satisfied
    exact mem_of_quiet_fire coherent quiet admitted later denoted

/-- So what closing returns is below any state above the given one that has only more of what the
rules derive, and to which they have nothing to add. -/
theorem le_of_close (coherent : objects.Coherent) {names : String → Bool} (above : s ≤ t)
    (framed : ∀ p ∈ t, names p.predicate = false → p ∈ s)
    (signed : ∀ r ∈ rules, r.body.signedOver names true = true)
    (quiet : ∀ r ∈ rules, (r.fire objects).run t = .ok false t)
    (done : (close objects rules).run s = .ok changed s') : s' ≤ t := by
  have kept (r : Rule) (hr : r ∈ rules) :
      Update.Preserves (fun u => s ≤ u ∧ u ≤ t) (r.fire objects) :=
    preserves_between coherent (signed r hr) (quiet r hr) framed
  have closed := Update.result_eq_ok.mpr ⟨changed, done⟩
  exact (preserves_close kept s s' ⟨le_rfl, above⟩ closed).2

/-- Where no body asks for the absence of a fact that one of the rules could derive, closing leads
to the same state in whatever order the rules are swept and however often one is repeated. -/
theorem close_eq_of_signedOver (types : TypeHierarchy) (declared : List Object)
    (signed : ∀ r ∈ rules, r.body.signedOver (derives rules) true = true)
    (same : ∀ r, r ∈ rules' ↔ r ∈ rules) {changed' : Bool}
    (first : (close (.ofList types declared) rules).run s = .ok changed s')
    (second : (close (.ofList types declared) rules').run s = .ok changed' t) :
    s' = t ∧ changed = changed' := by
  have coherent := ObjectTable.coherent_ofList types declared
  have saturated := saturates_of_close coherent first
  have saturated' := saturates_of_close coherent second
  obtain rfl : s' = t := by
    refine le_antisymm ?_ ?_
    · refine le_of_close coherent saturated'.above (fun p hp underived => ?_) signed
        (fun r hr => saturated'.quiet r ((same r).mpr hr)) first
      have underived := derives_eq_false.mp underived
      exact (saturated'.mem_iff fun r hr => underived r ((same r).mp hr)).mp hp
    · refine le_of_close coherent saturated.above (fun p hp underived => ?_)
        (fun r hr => signed r ((same r).mp hr))
        (fun r hr => saturated.quiet r ((same r).mp hr)) second
      exact (saturated.mem_iff (derives_eq_false.mp underived)).mp hp
  rw [Bool.eq_iff_iff, saturated.told, saturated'.told]
  exact ⟨rfl, Iff.rfl⟩

/-- What is held is taken, and what lacks the given predicate is free. -/
def vacancy (lacking : String) : List Rule :=
  [⟨[⟨"?x", "object"⟩], .not (.atom ⟨lacking, [.variableNamed "?x"]⟩),
      ⟨"free", [.variableNamed "?x"]⟩⟩,
    ⟨[⟨"?x", "object"⟩], .atom ⟨"held", [.variableNamed "?x"]⟩,
      ⟨"taken", [.variableNamed "?x"]⟩⟩]

def seat (predicate name : String) : Fact := ⟨predicate, [⟨name, "object"⟩]⟩

/-- No rule derives that a seat is held, so it does not matter when it is asked which are not. -/
theorem close_eq_of_signedOver_vacancy : ∃ changed s',
    (close (.ofList .initial [⟨"a", "object"⟩, ⟨"b", "object"⟩]) (vacancy "held")).run
      (.ofList [seat "held" "a"]) = .ok changed s' ∧
    (close (.ofList .initial [⟨"a", "object"⟩, ⟨"b", "object"⟩]) (vacancy "held").reverse).run
      (.ofList [seat "held" "a"]) = .ok changed s' ∧
    seat "free" "b" ∈ s' ∧ seat "free" "a" ∉ s' := by
  have forward : ∃ s',
      (close (.ofList .initial [⟨"a", "object"⟩, ⟨"b", "object"⟩]) (vacancy "held")).result
        (.ofList [seat "held" "a"]) = .ok s' ∧ seat "free" "b" ∈ s' ∧ seat "free" "a" ∉ s' := by
    refine exists_ok_and ?_
    decide +kernel
  have backward : ∃ t,
      (close (.ofList .initial [⟨"a", "object"⟩, ⟨"b", "object"⟩]) (vacancy "held").reverse).result
        (.ofList [seat "held" "a"]) = .ok t ∧ seat "taken" "a" ∈ t := by
    refine exists_ok_and ?_
    decide +kernel
  obtain ⟨s', first, free⟩ := forward
  obtain ⟨t, second, -⟩ := backward
  obtain ⟨changed, first⟩ := Update.result_eq_ok.mp first
  obtain ⟨changed', second⟩ := Update.result_eq_ok.mp second
  obtain ⟨rfl, rfl⟩ := close_eq_of_signedOver .initial [⟨"a", "object"⟩, ⟨"b", "object"⟩]
    (by decide) (fun r => List.mem_reverse) first second
  exact ⟨changed, s', first, second, free⟩

/-- One of the rules derives that a seat is taken. If it is swept too late, a seat that is held has
become free before. -/
theorem close_ne_vacancy : ∃ s' t, (vacancy "taken").reverse.Perm (vacancy "taken") ∧
    (close (.ofList .initial [⟨"a", "object"⟩]) (vacancy "taken")).result
      (.ofList [seat "held" "a"]) = .ok s' ∧
    (close (.ofList .initial [⟨"a", "object"⟩]) (vacancy "taken").reverse).result
      (.ofList [seat "held" "a"]) = .ok t ∧ s' ≠ t := by
  have forward : ∃ s', (close (.ofList .initial [⟨"a", "object"⟩]) (vacancy "taken")).result
      (.ofList [seat "held" "a"]) = .ok s' ∧ seat "free" "a" ∈ s' := by
    refine exists_ok_and ?_
    decide +kernel
  have backward : ∃ t, (close (.ofList .initial [⟨"a", "object"⟩]) (vacancy "taken").reverse).result
      (.ofList [seat "held" "a"]) = .ok t ∧ seat "free" "a" ∉ t := by
    refine exists_ok_and ?_
    decide +kernel
  obtain ⟨s', first, there⟩ := forward
  obtain ⟨t, second, absent⟩ := backward
  exact ⟨s', t, List.reverse_perm _, first, second, fun same => absent (same ▸ there)⟩

end Rule
end TypedPlanning
