import TypedPlanning.Proofs.Construction
import TypedPlanning.Proofs.Rendering

/-! Reading undoes writing. A definition whose words mean themselves is read, from the text that it
is written as, as exactly that definition. -/

namespace TypedPlanning
namespace Definition

open Fallible
open Text (Expression IsWord lower)

theorem read_part {α β : Type} {read : Except Error α} {x : α} (back : read = .ok x) (f : α → β) :
    (do return f (← read)) = (.ok (f x) : Except Error β) := by
  rw [back]
  rfl

theorem TypedName.readAll_writeAll {ds : List TypedName} (writable : ds.all isWritable) :
    readAll (writeAll ds) = .ok ds := by
  induction ds with
  | nil => rfl
  | cons d ds ih =>
    simp only [List.all_cons, Bool.and_eq_true, isWritable, decide_eq_true_eq] at writable
    obtain ⟨⟨-, -, noDash⟩, others⟩ := writable
    have rest : readAfter [] (writeAll ds) = .ok ds := ih others
    change readAfter [] (.word d.name :: .word "-" :: .word d.type :: writeAll ds) = _
    rw [readAfter, if_neg noDash, readAfter, if_pos rfl]
    simp only [rest]
    rfl

theorem Term.read_write {t : Term} (writable : t.isWritable) : Term.read t.write = .ok t := by
  cases t with
  | name n =>
    simp only [isWritable, decide_eq_true_eq] at writable
    simp [Term.read, write, expectWord, writable.2]
  | variableNamed v =>
    simp only [isWritable, decide_eq_true_eq] at writable
    simp [Term.read, write, expectWord, writable.2]

theorem mapM_map_write {α β : Type} {read : Expression → Except Error β} {write : α → Expression}
    {f : α → β} {xs : List α} (back : ∀ x ∈ xs, read (write x) = .ok (f x)) :
    (xs.map write).mapM read = .ok (xs.map f) := by
  rw [mapM_eq_ok, List.forall₂_map_left_iff, List.forall₂_map_right_iff, List.forall₂_same]
  exact back

theorem mapM_read_write {α : Type} {read : Expression → Except Error α} {write : α → Expression}
    {xs : List α} (back : ∀ x ∈ xs, read (write x) = .ok x) : (xs.map write).mapM read = .ok xs := by
  rw [@mapM_map_write _ _ _ _ id _ back, List.map_id]

theorem Atom.read_items {a : Atom} (writable : a.isWritable) : Atom.read a.items = .ok a := by
  simp only [isWritable, decide_eq_true_eq, List.all_eq_true] at writable
  have terms := mapM_read_write fun t ht => Term.read_write (writable.2 t ht)
  rw [items, Atom.read, terms]
  rfl

theorem timed?_keyword {w : String} (arguments : List Expression)
    (notTimed : lower w ∉ ["at", "over"]) : timed? (.word w :: arguments) = none := by
  have keywords : lower "at" = "at" ∧ lower "over" = "over" := by decide
  simp only [List.mem_cons, List.not_mem_nil, or_false, not_or] at notTimed
  unfold timed?
  split
  · rename_i eq
    obtain ⟨rfl, -⟩ := List.cons.inj eq
    simp [Expression.isKeyword, keywords, notTimed]
  · rfl

theorem Atom.timed?_items {a : Atom} (notOverAll : a.isOverAll = false) : timed? a.items = none := by
  obtain ⟨predicate, terms⟩ := a
  match terms with
  | [] => rfl
  | [_] => rfl
  | [part, last] =>
    have word : last.write.isList = false := by cases last <;> rfl
    simp only [isOverAll] at notOverAll
    simp [items, timed?, word, notOverAll]
  | _ :: _ :: _ :: _ => rfl

theorem not_isList_of_mem_items {a : Atom} :
    (a.terms.map Term.write).any Expression.isList = false := by
  rw [List.any_map, List.any_eq_false]
  rintro (n | v) _ <;> simp [Term.write, Expression.isList]

/-- A word that is followed by terms alone is a predicate unless it is a keyword. Words that
constrain trajectories are none where no condition follows them. -/
theorem Goal.read_atom {a : Atom} (writable : (Goal.atom a).isWritable) :
    Goal.read a.write = .ok (.atom a) := by
  simp only [isWritable, decide_eq_true_eq, Bool.not_eq_true'] at writable
  obtain ⟨writable, notOverAll, noKeyword⟩ := writable
  have untimed := Atom.timed?_items notOverAll
  have read := Atom.read_items writable
  have terms := @not_isList_of_mem_items a
  have noComparison : lower a.predicate ∉ comparisons :=
    fun h => noKeyword (List.mem_append_right _ h)
  simp only [goalKeywords, List.mem_append, List.mem_cons, List.not_mem_nil, or_false,
    not_or] at noKeyword
  rw [Atom.items] at read untimed
  unfold Atom.write Atom.items Goal.read
  simp only [untimed]
  split <;> simp_all

theorem read_binders {α : Type} {binders : List TypedName}
    (writable : binders.all TypedName.isWritable) (rest : List TypedName → Except Error α) :
    (do rest (← TypedName.readAll
        (← expectList "variable list" (.list (TypedName.writeAll binders))))) = rest binders := by
  change (do rest (← TypedName.readAll (TypedName.writeAll binders))) = _
  rw [TypedName.readAll_writeAll writable]
  rfl

mutual

theorem Goal.read_write (g : Goal) (writable : g.isWritable) : Goal.read g.write = .ok g := by
  match g with
  | .atom a => exact Goal.read_atom writable
  | .equal left right =>
    simp only [isWritable, decide_eq_true_eq] at writable
    -- Whether two sides are words is asked before they are read as terms.
    have unfolded : Goal.read (Goal.equal left right).write =
        (do return .equal (← Term.read left.write) (← Term.read right.write)) := by
      cases left <;> cases right <;> rfl
    rw [unfolded, Term.read_write writable.1, Term.read_write writable.2]
    rfl
  | .not g => exact read_part (Goal.read_write g writable) Goal.not
  | .and gs =>
    have untimed : timed? (.word "and" :: writeEach gs) = none := timed?_keyword _ (by decide)
    unfold write Goal.read
    rw [untimed]
    exact read_part (Goal.readEach_writeEach gs writable) Goal.and
  | .or gs =>
    have untimed : timed? (.word "or" :: writeEach gs) = none := timed?_keyword _ (by decide)
    unfold write Goal.read
    rw [untimed]
    exact read_part (Goal.readEach_writeEach gs writable) Goal.or
  | .imply a b =>
    simp only [isWritable, decide_eq_true_eq] at writable
    change (do return Goal.imply (← Goal.read a.write) (← Goal.read b.write)) = _
    rw [Goal.read_write a writable.1, Goal.read_write b writable.2]
    rfl
  | .forAll binders g =>
    simp only [isWritable, decide_eq_true_eq] at writable
    refine (read_binders writable.1 fun binders => do
      return Goal.forAll binders (← Goal.read g.write)).trans ?_
    exact read_part (Goal.read_write g writable.2) _
  | .forSome binders g =>
    simp only [isWritable, decide_eq_true_eq] at writable
    refine (read_binders writable.1 fun binders => do
      return Goal.forSome binders (← Goal.read g.write)).trans ?_
    exact read_part (Goal.read_write g writable.2) _
  | .unsupported _ => cases writable

theorem Goal.readEach_writeEach (gs : List Goal) (writable : Goal.areWritable gs) :
    Goal.readEach (Goal.writeEach gs) = .ok gs := by
  match gs with
  | [] => rfl
  | g :: gs =>
    simp only [areWritable, decide_eq_true_eq] at writable
    rw [writeEach, readEach, Goal.read_write g writable.1, Goal.readEach_writeEach gs writable.2]
    rfl

end

theorem Effect.read_add {a : Atom} (writable : (Effect.add a).isWritable) :
    Effect.read a.write = .ok (.add a) := by
  simp only [isWritable, decide_eq_true_eq, Bool.not_eq_true'] at writable
  obtain ⟨writable, notOverAll, noKeyword⟩ := writable
  have untimed := Atom.timed?_items notOverAll
  have read := Atom.read_items writable
  have noChange : lower a.predicate ∉ numericChanges :=
    fun h => noKeyword (List.mem_append_right _ h)
  simp only [effectKeywords, List.mem_append, List.mem_cons, List.not_mem_nil, or_false,
    not_or] at noKeyword
  rw [Atom.items] at read untimed
  unfold Atom.write Atom.items Effect.read
  simp only [untimed]
  split <;> simp_all

mutual

theorem Effect.read_write (e : Effect) (writable : e.isWritable) : Effect.read e.write = .ok e := by
  match e with
  | .add a => exact Effect.read_add writable
  | .delete a => exact read_part (Atom.read_items writable) Effect.delete
  | .and es =>
    have untimed : timed? (.word "and" :: writeEach es) = none := timed?_keyword _ (by decide)
    unfold write Effect.read
    rw [untimed]
    exact read_part (Effect.readEach_writeEach es writable) Effect.and
  | .when guard e =>
    simp only [isWritable, decide_eq_true_eq] at writable
    change (do return Effect.when (← Goal.read guard.write) (← Effect.read e.write)) = _
    rw [guard.read_write writable.1, Effect.read_write e writable.2]
    rfl
  | .forAll binders e =>
    simp only [isWritable, decide_eq_true_eq] at writable
    refine (read_binders writable.1 fun binders => do
      return Effect.forAll binders (← Effect.read e.write)).trans ?_
    exact read_part (Effect.read_write e writable.2) _
  | .unsupported _ => cases writable

theorem Effect.readEach_writeEach (es : List Effect) (writable : Effect.areWritable es) :
    Effect.readEach (Effect.writeEach es) = .ok es := by
  match es with
  | [] => rfl
  | e :: es =>
    simp only [areWritable, decide_eq_true_eq] at writable
    rw [writeEach, readEach, Effect.read_write e writable.1,
      Effect.readEach_writeEach es writable.2]
    rfl

end

/-- Sections of one kind, each of which makes what has been read so far `grow` by what it was
written from. -/
theorem foldlM_map_write {α β : Type} {step : β → Expression → Except Error β}
    {write : α → Expression} {grow : β → List α → β} (start : ∀ b, grow b [] = b)
    (further : ∀ b x xs, grow (grow b [x]) xs = grow b (x :: xs)) {xs : List α}
    (steps : ∀ x ∈ xs, ∀ b, step b (write x) = .ok (grow b [x])) (b : β) :
    (xs.map write).foldlM step b = .ok (grow b xs) := by
  induction xs generalizing b with
  | nil => rw [start]; rfl
  | cons x xs ih =>
    obtain ⟨first, others⟩ := List.forall_mem_cons.mp steps
    rw [List.map_cons, foldlM_cons_of_ok (first b), ih others, further]

theorem Predicate.read_write {p : Predicate} (writable : p.isWritable) :
    Predicate.read p.write = .ok p := by
  simp only [isWritable, decide_eq_true_eq] at writable
  exact read_part (TypedName.readAll_writeAll writable.2) (Predicate.mk p.name)

theorem Action.read_fields {a : Action} (writable : a.isWritable) (whole : Expression) :
    Action.read whole [.word a.name, .word ":parameters", .list (TypedName.writeAll a.parameters),
      .word ":precondition", a.precondition.write, .word ":effect", a.effect.write] = .ok a := by
  simp only [isWritable, decide_eq_true_eq] at writable
  obtain ⟨-, parameters, precondition, effect⟩ := writable
  have parameters (b : Action) : setField b (.word ":parameters",
      .list (TypedName.writeAll a.parameters)) = .ok { b with parameters := a.parameters } :=
    read_part (TypedName.readAll_writeAll parameters) fun x => ({ b with parameters := x } : Action)
  have precondition (b : Action) : setField b (.word ":precondition", a.precondition.write) =
      .ok { b with precondition := a.precondition } :=
    read_part (Goal.read_write _ precondition) fun x => ({ b with precondition := x } : Action)
  have effect (b : Action) : setField b (.word ":effect", a.effect.write) =
      .ok { b with effect := a.effect } :=
    read_part (Effect.read_write _ effect) fun x => ({ b with effect := x } : Action)
  change List.foldlM setField ⟨a.name, [], .truth, .nothing⟩
    [(.word ":parameters", .list (TypedName.writeAll a.parameters)),
      (.word ":precondition", a.precondition.write), (.word ":effect", a.effect.write)] = _
  rw [foldlM_cons_of_ok (parameters _), foldlM_cons_of_ok (precondition _),
    foldlM_cons_of_ok (effect _)]
  rfl

theorem Axiom.read_fields {a : Axiom} (writable : a.isWritable) (whole : Expression) :
    Axiom.read whole [.word ":vars", .list (TypedName.writeAll a.binders),
      .word ":context", a.context.write, .word ":implies", a.implies.write] = .ok a := by
  simp only [isWritable, decide_eq_true_eq] at writable
  obtain ⟨binders, context, implies⟩ := writable
  have binders (b : Draft) : b.setField (.word ":vars", .list (TypedName.writeAll a.binders)) =
      .ok { b with binders := a.binders } :=
    read_part (TypedName.readAll_writeAll binders) fun x => ({ b with binders := x } : Draft)
  have context (b : Draft) : b.setField (.word ":context", a.context.write) =
      .ok { b with context := a.context } :=
    read_part (Goal.read_write _ context) fun x => ({ b with context := x } : Draft)
  have implies (b : Draft) : b.setField (.word ":implies", a.implies.write) =
      .ok { b with implies := some a.implies } :=
    read_part (Goal.read_write _ implies) fun x => ({ b with implies := some x } : Draft)
  have drafted : List.foldlM Draft.setField {}
      [(.word ":vars", .list (TypedName.writeAll a.binders)), (.word ":context", a.context.write),
        (.word ":implies", a.implies.write)] =
      .ok { binders := a.binders, context := a.context, implies := some a.implies } := by
    rw [foldlM_cons_of_ok (binders _), foldlM_cons_of_ok (context _),
      foldlM_cons_of_ok (implies _)]
    rfl
  have fields : readFields whole [.word ":vars", .list (TypedName.writeAll a.binders),
      .word ":context", a.context.write, .word ":implies", a.implies.write] =
    .ok [(.word ":vars", .list (TypedName.writeAll a.binders)), (.word ":context", a.context.write),
      (.word ":implies", a.implies.write)] := rfl
  simp only [Axiom.read, fields, drafted, bind, Except.bind]
  rfl

theorem Derived.read_parts {d : Derived} (writable : d.isWritable) (whole : Expression) :
    Derived.read whole [d.head.write, d.body.write] = .ok d := by
  simp only [isWritable, decide_eq_true_eq] at writable
  rw [Derived.read, Predicate.read_write writable.1, Goal.read_write _ writable.2]
  rfl

theorem mapM_expectWord (what : String) (ws : List String) :
    (ws.map Expression.word).mapM (expectWord what) = .ok ws :=
  mapM_read_write fun _ _ => rfl

theorem readHeader_writeDefinition (kind name : String) (sections : List Expression) :
    readHeader kind (writeDefinition kind name sections) = .ok (name, sections) := by
  have define : (Expression.word "define").isKeyword "define" = true := by decide
  have same : (Expression.word kind).isKeyword kind = true := beq_self_eq_true _
  simp only [readHeader, writeDefinition, expectList, expectWord, define, same, bind, Except.bind]
  rfl

theorem Domain.foldlM_sections {d : Domain} (writable : d.isWritable) :
    d.sections.foldlM addSection { name := d.name } = .ok d := by
  simp only [isWritable, decide_eq_true_eq] at writable
  obtain ⟨-, -, types, constants, predicates, derived, axioms, actions⟩ := writable
  simp only [List.all_eq_true] at predicates derived axioms actions
  have requirements (b : Domain) :
      addSection b (.list (.word ":requirements" :: d.requirements.map .word)) =
        .ok { b with requirements := b.requirements ++ d.requirements } :=
    read_part (mapM_expectWord "requirement" d.requirements)
      fun ws => ({ b with requirements := b.requirements ++ ws } : Domain)
  have types (b : Domain) : addSection b (.list (.word ":types" :: TypedName.writeAll d.types)) =
      .ok { b with types := b.types ++ d.types } :=
    read_part (TypedName.readAll_writeAll types) fun ds => ({ b with types := b.types ++ ds } : Domain)
  have constants (b : Domain) :
      addSection b (.list (.word ":constants" :: TypedName.writeAll d.constants)) =
        .ok { b with constants := b.constants ++ d.constants } :=
    read_part (TypedName.readAll_writeAll constants)
      fun ds => ({ b with constants := b.constants ++ ds } : Domain)
  have predicates (b : Domain) :
      addSection b (.list (.word ":predicates" :: d.predicates.map Predicate.write)) =
        .ok { b with predicates := b.predicates ++ d.predicates } :=
    read_part (mapM_read_write fun p hp => Predicate.read_write (predicates p hp))
      fun ps => ({ b with predicates := b.predicates ++ ps } : Domain)
  have derived := @foldlM_map_write Derived Domain addSection Derived.write
    (fun b xs => { b with derived := b.derived ++ xs }) (by simp) (by simp) d.derived fun x hx b =>
      read_part (Derived.read_parts (derived x hx) x.write)
        fun x => ({ b with derived := b.derived ++ [x] } : Domain)
  have axioms := @foldlM_map_write Axiom Domain addSection Axiom.write
    (fun b xs => { b with axioms := b.axioms ++ xs }) (by simp) (by simp) d.axioms fun x hx b =>
      read_part (Axiom.read_fields (axioms x hx) x.write)
        fun x => ({ b with axioms := b.axioms ++ [x] } : Domain)
  have actions := @foldlM_map_write Action Domain addSection Action.write
    (fun b xs => { b with actions := b.actions ++ xs }) (by simp) (by simp) d.actions fun x hx b =>
      read_part (Action.read_fields (actions x hx) x.write)
        fun x => ({ b with actions := b.actions ++ [x] } : Domain)
  simp only [sections, List.cons_append, List.nil_append]
  rw [foldlM_cons_of_ok (requirements _), foldlM_cons_of_ok (types _),
    foldlM_cons_of_ok (constants _), foldlM_cons_of_ok (predicates _),
    foldlM_append_of_ok (derived _), foldlM_append_of_ok (axioms _), actions]
  rfl

theorem Domain.read_write {d : Domain} (writable : d.isWritable) :
    Domain.read d.write.text = .ok d := by
  have text := Text.readOne_text .domain (Domain.written_write writable)
  have header := readHeader_writeDefinition "domain" d.name d.sections
  rw [← Domain.write] at header
  simp only [Domain.read, text, header, foldlM_sections writable, bind, Except.bind]

theorem readInitialFact_write {a : Atom} (writable : a.isWritable) (initial : a.isInitial) :
    readInitialFact a.write = .ok (some a) := by
  simp only [Atom.isInitial, decide_eq_true_eq, List.mem_cons, List.not_mem_nil, or_false,
    not_or, List.all_eq_true] at initial
  obtain ⟨ground, notNegated, notNumeric⟩ := initial
  have read := Atom.read_items writable
  have keywords : lower "not" = "not" ∧ lower "=" = "=" := by decide
  rw [Atom.items] at read
  unfold readInitialFact Atom.write Atom.items
  simp only [expectList, List.head?_cons, Option.any_some, Expression.isKeyword, keywords,
    beq_eq_false_iff_ne.mpr notNegated, beq_eq_false_iff_ne.mpr notNumeric, bind, Except.bind]
  rw [if_neg Bool.false_ne_true, if_neg Bool.false_ne_true]
  split
  -- A fact that is set for a time ends in a list, and no term is written as one.
  · rename_i items
    have last : ∃ t ∈ a.terms, t.write.isList = true := by
      obtain ⟨-, items⟩ := List.cons.inj items
      obtain ⟨_, rest, eq, -, items⟩ := List.map_eq_cons_iff.mp items
      obtain ⟨t, _, rfl, list, -⟩ := List.map_eq_cons_iff.mp items
      exact ⟨t, by simp [eq], by rw [list]; rfl⟩
    obtain ⟨t, -, isList⟩ := last
    cases t <;> cases isList
  · rw [read]
    refine if_neg ?_
    rw [List.any_eq_true]
    rintro ⟨_ | v, ht, isVariable⟩
    · cases isVariable
    · cases ground _ ht

theorem Problem.foldlM_sections {p : Problem} (writable : p.isWritable) :
    p.sections.foldlM Draft.addSection {} = .ok
      { domainName := some p.domainName, requirements := p.requirements, objects := p.objects,
        initial := p.initial, goal := some p.goal } := by
  simp only [isWritable, decide_eq_true_eq] at writable
  obtain ⟨-, -, -, objects, initial, goal⟩ := writable
  simp only [List.all_eq_true, decide_eq_true_eq] at initial
  have domainName (b : Draft) : b.addSection (.list [.word ":domain", .word p.domainName]) =
      .ok { b with domainName := some p.domainName } := rfl
  have requirements (b : Draft) :
      b.addSection (.list (.word ":requirements" :: p.requirements.map .word)) =
        .ok { b with requirements := b.requirements ++ p.requirements } :=
    read_part (mapM_expectWord "requirement" p.requirements)
      fun ws => ({ b with requirements := b.requirements ++ ws } : Draft)
  have objects (b : Draft) :
      b.addSection (.list (.word ":objects" :: TypedName.writeAll p.objects)) =
        .ok { b with objects := b.objects ++ p.objects } :=
    read_part (TypedName.readAll_writeAll objects)
      fun ds => ({ b with objects := b.objects ++ ds } : Draft)
  have facts : (p.initial.map Atom.write).mapM readInitialFact = .ok (p.initial.map some) :=
    mapM_map_write fun a ha => readInitialFact_write (initial a ha).1 (initial a ha).2
  have initial (b : Draft) : b.addSection (.list (.word ":init" :: p.initial.map Atom.write)) =
      .ok { b with initial := b.initial ++ (p.initial.map some).filterMap id } :=
    read_part facts fun as => ({ b with initial := b.initial ++ as.filterMap id } : Draft)
  have goal (b : Draft) : b.addSection (.list [.word ":goal", p.goal.write]) =
      .ok { b with goal := some p.goal } :=
    read_part (Goal.read_write _ goal) fun g => ({ b with goal := some g } : Draft)
  rw [sections, foldlM_cons_of_ok (domainName _), foldlM_cons_of_ok (requirements _),
    foldlM_cons_of_ok (objects _), foldlM_cons_of_ok (initial _), foldlM_cons_of_ok (goal _),
    List.filterMap_map]
  simp
  rfl

theorem Problem.read_write {p : Problem} (writable : p.isWritable) :
    Problem.read p.write.text = .ok p := by
  have text := Text.readOne_text .problem (Problem.written_write writable)
  have header := readHeader_writeDefinition "problem" p.name p.sections
  rw [← Problem.write] at header
  simp only [Problem.read, text, header, foldlM_sections writable, bind, Except.bind]
  rfl

/-- Every definition whose words mean themselves is read, from its text, as it was written. -/
theorem definitions_read_back :
    (∀ d : Domain, d.isWritable → Domain.read d.write.text = .ok d) ∧
    ∀ p : Problem, p.isWritable → Problem.read p.write.text = .ok p :=
  ⟨fun _ => Domain.read_write, fun _ => Problem.read_write⟩

open TypedPlanning.Problem (lampDomain lampProblem)

/-- Words that constrain trajectories may be predicates, and every word may be one of a fact that
is taken away. -/
theorem lamps_read_back :
    Domain.read lampDomain.write.text = .ok lampDomain ∧
    Problem.read lampProblem.write.text = .ok lampProblem ∧
    ∃ d : Domain, d.derived = [⟨⟨"at", []⟩, .atom ⟨"always", [.name "over"]⟩⟩] ∧
      d.actions = [⟨"not", [], .truth, .delete ⟨"when", [.name "all"]⟩⟩] ∧
      Domain.read d.write.text = .ok d := by
  obtain ⟨domains, problems⟩ := definitions_read_back
  refine ⟨domains _ (by decide +kernel), problems _ (by decide +kernel), ?_⟩
  let d : Domain := { name := "and",
                      derived := [⟨⟨"at", []⟩, .atom ⟨"always", [.name "over"]⟩⟩],
                      actions := [⟨"not", [], .truth, .delete ⟨"when", [.name "all"]⟩⟩] }
  exact ⟨d, rfl, rfl, domains d (by decide +kernel)⟩

end Definition
end TypedPlanning
