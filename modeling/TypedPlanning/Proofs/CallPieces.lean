import TypedPlanning.Proofs.Calls

/-! The pieces of a written call. A text that is read as a call comes apart into names and the gaps
between and around them in one way only, so the text tells the call. All other texts are refused as
they stand. -/

namespace TypedPlanning
namespace Text
namespace Call

/-- Names and gaps, in the order in which they are written. The two gaps inside the brackets are
there only if the brackets are. -/
structure Pieces where
  before : List Char
  brackets : Option (List Char × List Char)
  name : String
  /-- Each argument with the gap in front of it. -/
  arguments : List (List Char × String)
  after : List Char

namespace Pieces

def spread : List (List Char × String) → List Char
  | [] => []
  | (gap, argument) :: arguments => gap ++ (argument.toList ++ spread arguments)

def chars (p : Pieces) : List Char :=
  match p.brackets with
  | none => p.before ++ (p.name.toList ++ (spread p.arguments ++ p.after))
  | some (opening, closing) => p.before ++
      '(' :: (opening ++ (p.name.toList ++ (spread p.arguments ++ (closing ++ ')' :: p.after))))

def call (p : Pieces) : Call := ⟨p.name, p.arguments.map Prod.snd⟩

def ProperArguments (arguments : List (List Char × String)) : Prop :=
  ∀ argument ∈ arguments, argument.1 ≠ [] ∧ OnlySpaces isSpace argument.1 ∧
    isName argument.2 = true

structure Proper (p : Pieces) : Prop where
  before : OnlySpaces isSpace p.before
  brackets : ∀ gaps ∈ p.brackets, OnlySpaces isSpace gaps.1 ∧ OnlySpaces isSpace gaps.2
  name : isName p.name = true
  arguments : ProperArguments p.arguments
  after : OnlySpaces isSpace p.after

theorem spread_of_proper {arguments : List (List Char × String)}
    (proper : ProperArguments arguments) :
    Spread isSpace (arguments.map Prod.snd) (spread arguments) := by
  induction arguments with
  | nil => exact .nil
  | cons argument arguments ih =>
    obtain ⟨⟨solid, spaces, -⟩, others⟩ := List.forall_mem_cons.mp proper
    exact .cons solid spaces (ih others)

theorem exists_arguments {names : List String} {cs : List Char} (laid : Spread isSpace names cs)
    (named : ∀ name ∈ names, isName name = true) :
    ∃ arguments, ProperArguments arguments ∧ arguments.map Prod.snd = names ∧
      spread arguments = cs := by
  induction laid with
  | nil => exact ⟨[], List.forall_mem_nil _, rfl, rfl⟩
  | @cons gap cs name names solid spaces _ ih =>
    obtain ⟨first, named⟩ := List.forall_mem_cons.mp named
    obtain ⟨arguments, proper, rfl, rfl⟩ := ih named
    exact ⟨(gap, name) :: arguments, List.forall_mem_cons.mpr ⟨⟨solid, spaces, first⟩, proper⟩,
      rfl, rfl⟩

theorem exists_pieces_iff {c : Call} {cs : List Char} :
    (∃ p : Pieces, p.Proper ∧ p.chars = cs ∧ p.call = c) ↔
      c.Readable ∧ c.LaidOut isSpace cs := by
  constructor
  · rintro ⟨p, proper, rfl, rfl⟩
    refine ⟨⟨proper.name, List.forall_mem_map.mpr fun argument there =>
      (proper.arguments argument there).2.2⟩, ?_⟩
    obtain ⟨before, brackets, name, arguments, after⟩ := p
    have laid := spread_of_proper proper.arguments
    obtain _ | ⟨opening, closing⟩ := brackets
    · exact .bare proper.before laid proper.after
    · obtain ⟨opens, closes⟩ := proper.brackets _ rfl
      exact .bracketed proper.before opens laid closes proper.after
  · obtain ⟨name, names⟩ := c
    rintro ⟨⟨first, named⟩, laid⟩
    cases laid with
    | @bare before _ after before_spaces laid after_spaces =>
      obtain ⟨arguments, proper, rfl, rfl⟩ := exists_arguments laid named
      have inside : ∀ gaps ∈ (none : Option (List Char × List Char)),
          OnlySpaces isSpace gaps.1 ∧ OnlySpaces isSpace gaps.2 := by
        rintro _ ⟨⟩
      exact ⟨⟨before, none, name, arguments, after⟩,
        ⟨before_spaces, inside, first, proper, after_spaces⟩, rfl, rfl⟩
    | @bracketed before opening _ closing after before_spaces opens laid closes after_spaces =>
      obtain ⟨arguments, proper, rfl, rfl⟩ := exists_arguments laid named
      have inside : ∀ gaps ∈ some (opening, closing),
          OnlySpaces isSpace gaps.1 ∧ OnlySpaces isSpace gaps.2 := by
        rintro _ ⟨⟩
        exact ⟨opens, closes⟩
      exact ⟨⟨before, some (opening, closing), name, arguments, after⟩,
        ⟨before_spaces, inside, first, proper, after_spaces⟩, rfl, rfl⟩

theorem append_unique {kind : Char → Bool} {as bs rest rest' : List Char}
    (inside : ∀ c ∈ as, kind c = true) (inside' : ∀ c ∈ bs, kind c = true)
    (ends : ∀ c ∈ rest.head?, kind c = false) (ends' : ∀ c ∈ rest'.head?, kind c = false)
    (same : as ++ rest = bs ++ rest') : as = bs ∧ rest = rest' := by
  obtain rfl : as = bs := by
    rw [← takeWhile_append_of_ends inside ends, same, takeWhile_append_of_ends inside' ends']
  exact ⟨rfl, List.append_cancel_left same⟩

/-- The text goes on with something that belongs to no gap and to no name. -/
def Stops (rest : List Char) : Prop := ∀ c ∈ rest.head?, isSpace c = false ∧ isNameChar c = false

variable {s s' : String} {gap gap' rest rest' : List Char}
  {arguments arguments' : List (List Char × String)}

theorem isNameChar_of_mem {s : String} (named : isName s = true) :
    ∀ c ∈ s.toList, isNameChar c = true := by
  obtain ⟨c, cs, spelled, letter, chars⟩ := isName_iff.mp named
  rw [spelled]
  exact List.forall_mem_cons.mpr ⟨by simp [isNameChar, Char.isAlphanum, letter], chars⟩

theorem isSpace_false_of_name (named : isName s = true) (cs : List Char) :
    ∀ c ∈ (s.toList ++ cs).head?, isSpace c = false := by
  obtain ⟨c, rest, spelled, letter, -⟩ := isName_iff.mp named
  rw [spelled]
  rintro _ ⟨⟩
  exact isSpace_false_of_isAlpha letter

theorem name_unique (named : isName s = true) (named' : isName s' = true) (ends : EndsName rest)
    (ends' : EndsName rest') (same : s.toList ++ rest = s'.toList ++ rest') :
    s = s' ∧ rest = rest' := by
  obtain ⟨names, rest⟩ := append_unique (isNameChar_of_mem named) (isNameChar_of_mem named')
    ends ends' same
  exact ⟨String.toList_injective names, rest⟩

theorem gap_unique (spaces : OnlySpaces isSpace gap) (spaces' : OnlySpaces isSpace gap')
    (named : isName s = true) (named' : isName s' = true) {cs cs' : List Char}
    (same : gap ++ (s.toList ++ cs) = gap' ++ (s'.toList ++ cs')) :
    gap = gap' ∧ s.toList ++ cs = s'.toList ++ cs' :=
  append_unique spaces spaces' (isSpace_false_of_name named cs) (isSpace_false_of_name named' cs')
    same

theorem gap_ne_argument (spaces : OnlySpaces isSpace gap) (stops : Stops rest)
    (spaces' : OnlySpaces isSpace gap') (named : isName s = true) (cs : List Char) :
    gap ++ rest ≠ gap' ++ (s.toList ++ cs) := by
  intro same
  obtain ⟨-, rfl⟩ := append_unique spaces spaces' (fun c hc => (stops c hc).1)
    (isSpace_false_of_name named cs) same
  obtain ⟨c, name, spelled, letter, -⟩ := isName_iff.mp named
  have outside := (stops c (by rw [spelled]; rfl)).2
  simp [isNameChar, Char.isAlphanum, letter] at outside

theorem endsName_arguments (proper : ProperArguments arguments) (spaces : OnlySpaces isSpace gap)
    (stops : Stops rest) : EndsName (spread arguments ++ (gap ++ rest)) :=
  (spread_of_proper proper).endsName (.append spaces fun c hc => (stops c hc).2)

theorem arguments_unique (proper : ProperArguments arguments)
    (proper' : ProperArguments arguments') (spaces : OnlySpaces isSpace gap)
    (spaces' : OnlySpaces isSpace gap') (stops : Stops rest) (stops' : Stops rest')
    (same : spread arguments ++ (gap ++ rest) = spread arguments' ++ (gap' ++ rest')) :
    arguments = arguments' ∧ gap = gap' ∧ rest = rest' := by
  induction arguments generalizing arguments' with
  | nil =>
    obtain _ | ⟨⟨gap₁, s⟩, arguments'⟩ := arguments'
    · exact ⟨rfl, append_unique spaces spaces' (fun c hc => (stops c hc).1)
        (fun c hc => (stops' c hc).1) same⟩
    · obtain ⟨⟨-, spaces₁, named⟩, -⟩ := List.forall_mem_cons.mp proper'
      simp only [spread, List.nil_append, List.append_assoc] at same
      exact absurd same (gap_ne_argument spaces stops spaces₁ named _)
  | cons argument arguments ih =>
    obtain ⟨gap₁, s⟩ := argument
    obtain ⟨⟨-, spaces₁, named⟩, others⟩ := List.forall_mem_cons.mp proper
    obtain _ | ⟨⟨gap₂, s'⟩, arguments'⟩ := arguments'
    · simp only [spread, List.nil_append, List.append_assoc] at same
      exact absurd same.symm (gap_ne_argument spaces' stops' spaces₁ named _)
    · obtain ⟨⟨-, spaces₂, named'⟩, others'⟩ := List.forall_mem_cons.mp proper'
      simp only [spread, List.append_assoc] at same
      obtain ⟨gaps, same⟩ := gap_unique spaces₁ spaces₂ named named' same
      obtain ⟨names, same⟩ := name_unique named named' (endsName_arguments others spaces stops)
        (endsName_arguments others' spaces' stops') same
      obtain ⟨more, rest⟩ := ih others others' same
      exact ⟨congrArg₂ _ (Prod.ext gaps names) more, rest⟩

theorem body_unique (named : isName s = true) (named' : isName s' = true)
    (proper : ProperArguments arguments) (proper' : ProperArguments arguments')
    (spaces : OnlySpaces isSpace gap) (spaces' : OnlySpaces isSpace gap') (stops : Stops rest)
    (stops' : Stops rest')
    (same : s.toList ++ (spread arguments ++ (gap ++ rest)) =
      s'.toList ++ (spread arguments' ++ (gap' ++ rest'))) :
    s = s' ∧ arguments = arguments' ∧ gap = gap' ∧ rest = rest' := by
  obtain ⟨names, same⟩ := name_unique named named' (endsName_arguments proper spaces stops)
    (endsName_arguments proper' spaces' stops') same
  exact ⟨names, arguments_unique proper proper' spaces spaces' stops stops' same⟩

theorem stops_nil : Stops [] := by
  rintro _ ⟨⟩

theorem stops_closing (cs : List Char) : Stops (')' :: cs) := by
  rintro _ ⟨⟩
  decide

theorem isSpace_false_of_opening (cs : List Char) :
    ∀ c ∈ ('(' :: cs).head?, isSpace c = false := by
  rintro _ ⟨⟩
  decide

/-- A name does not begin with a bracket, so the brackets can be seen. -/
theorem bare_ne_bracketed (spaces : OnlySpaces isSpace gap) (spaces' : OnlySpaces isSpace gap')
    (named : isName s = true) (cs cs' : List Char) :
    gap ++ (s.toList ++ cs) ≠ gap' ++ '(' :: cs' := by
  intro same
  obtain ⟨-, same⟩ := append_unique spaces spaces' (isSpace_false_of_name named cs)
    (isSpace_false_of_opening cs') same
  obtain ⟨c, rest, spelled, letter, -⟩ := isName_iff.mp named
  rw [spelled] at same
  obtain ⟨rfl, -⟩ := List.cons.inj same
  cases letter

theorem Proper.unique {p q : Pieces} (proper : p.Proper) (proper' : q.Proper)
    (same : p.chars = q.chars) : p = q := by
  obtain ⟨before, brackets, name, arguments, after⟩ := p
  obtain ⟨before', brackets', name', arguments', after'⟩ := q
  obtain _ | ⟨opening, closing⟩ := brackets <;> obtain _ | ⟨opening', closing'⟩ := brackets' <;>
    simp only [chars] at same
  case none.none =>
    obtain ⟨rfl, bodies⟩ := gap_unique proper.before proper'.before proper.name proper'.name same
    rw [← List.append_nil after, ← List.append_nil after'] at bodies
    obtain ⟨rfl, rfl, rfl, -⟩ := body_unique proper.name proper'.name proper.arguments
      proper'.arguments proper.after proper'.after stops_nil stops_nil bodies
    rfl
  case none.some =>
    exact absurd same (bare_ne_bracketed proper.before proper'.before proper.name _ _)
  case some.none =>
    exact absurd same.symm (bare_ne_bracketed proper'.before proper.before proper'.name _ _)
  case some.some =>
    obtain ⟨opens, closes⟩ := proper.brackets _ rfl
    obtain ⟨opens', closes'⟩ := proper'.brackets _ rfl
    obtain ⟨rfl, insides⟩ := append_unique proper.before proper'.before
      (isSpace_false_of_opening _) (isSpace_false_of_opening _) same
    obtain ⟨rfl, bodies⟩ := gap_unique opens opens' proper.name proper'.name
      (List.cons.inj insides).2
    obtain ⟨rfl, rfl, rfl, ends⟩ := body_unique proper.name proper'.name proper.arguments
      proper'.arguments closes closes' (stops_closing _) (stops_closing _) bodies
    obtain rfl := (List.cons.inj ends).2
    rfl

end Pieces

theorem read_eq_error_iff {text : String} {e : Error} :
    read text = .error e ↔ e = .call (.malformed text) ∧ ∀ c, read text ≠ .ok c := by
  have refused (e : Error) (failed : read text = .error e) : e = .call (.malformed text) := by
    simp only [read] at failed
    split at failed
    · split at failed <;> cases failed
      rfl
    · cases failed
      rfl
  constructor
  · intro failed
    refine ⟨refused e failed, fun c read => ?_⟩
    cases failed.symm.trans read
  · rintro ⟨rfl, unread⟩
    cases read : read text with
    | ok c => exact absurd read (unread c)
    | error e => rw [refused e read]

/-- A text is read as a call exactly if it comes apart into the names of the call and gaps, and it
does so in at most one way. A text that does not is refused, and told as it is. What a name is, is
said by its characters. Names that are printed with single spaces are read back. -/
theorem read_iff_pieces (text : String) :
    (∀ c, read text = .ok c ↔ ∃ p : Pieces, p.Proper ∧ p.chars = text.toList ∧ p.call = c) ∧
    (∀ p q : Pieces, p.Proper → q.Proper → p.chars = text.toList → q.chars = text.toList →
      p = q) ∧
    (∀ e, read text = .error e ↔ e = .call (.malformed text) ∧
      ¬∃ p : Pieces, p.Proper ∧ p.chars = text.toList) ∧
    (isName text = true ↔ ∃ c cs, text.toList = c :: cs ∧ c.isAlpha = true ∧
      ∀ d ∈ cs, d.isAlphanum = true ∨ d = '-' ∨ d = '_') ∧
    ∀ c : Call, c.Readable → text = spaced c.name c.arguments → read text = .ok c := by
  have made (c : Call) : read text = .ok c ↔
      ∃ p : Pieces, p.Proper ∧ p.chars = text.toList ∧ p.call = c := by
    rw [Pieces.exists_pieces_iff, read_eq_ok_iff]
  refine ⟨made, fun p q proper proper' same same' => ?_, fun e => ?_, ?_, ?_⟩
  · exact proper.unique proper' (same.trans same'.symm)
  · rw [read_eq_error_iff]
    refine and_congr_right fun _ => ⟨?_, ?_⟩
    · rintro unread ⟨p, proper, same⟩
      exact unread p.call ((made _).mpr ⟨p, proper, same, rfl⟩)
    · intro none c read
      obtain ⟨p, proper, same, -⟩ := (made c).mp read
      exact none ⟨p, proper, same⟩
  · rw [isName_iff]
    simp only [isNameChar, Bool.or_eq_true, beq_iff_eq, or_assoc]
  · rintro c readable rfl
    exact read_spaced readable

def shelving : Call := ⟨"pick-up", ["box_1", "B2"]⟩

theorem read_iff_pieces_shelving : shelving.Readable ∧
    read "pick-up box_1 B2" = .ok shelving ∧
    (∃ p : Pieces, p.call = shelving ∧
      ∀ q : Pieces, q.Proper ∧ q.chars = "pick-up box_1 B2".toList ↔ q = p) := by
  obtain ⟨pieces, unique, -, -, printed⟩ := read_iff_pieces "pick-up box_1 B2"
  have readable : shelving.Readable := ⟨by decide +kernel, by decide +kernel⟩
  have reads : read "pick-up box_1 B2" = .ok shelving :=
    printed shelving readable (by decide +kernel)
  obtain ⟨p, proper, same, called⟩ := (pieces shelving).mp reads
  refine ⟨readable, reads, p, called, fun q => ⟨?_, ?_⟩⟩
  · rintro ⟨proper', same'⟩
    exact unique q p proper' proper same' same
  · rintro rfl
    exact ⟨proper, same⟩

end Call
end Text
end TypedPlanning
