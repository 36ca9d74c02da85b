import TypedPlanning.Proofs.Calls
import TypedPlanning.Proofs.Provenance

/-! The texts of facts and of states. A text is read as a fact exactly if it is a layout of it and
the fact has what its predicate declares: so many arguments, all of them objects of the problem. So
states of such facts are read back from any listing of their texts, and tell apart by these. -/

namespace TypedPlanning
open Fallible

def Fact.call (f : Fact) : Text.Call := ⟨f.predicate, f.arguments.map Object.name⟩

theorem Fact.laidOut_text (f : Fact) : f.call.LaidOut Text.isSpace f.text.toList :=
  f.call.laidOut_spaced

/-- The texts are those of the facts of the state, each of them as often as one likes, in any order
and in any layout. -/
structure State.ListedAs (space : Char → Bool) (s : State) (texts : List String) : Prop where
  only : ∀ text ∈ texts, ∃ f ∈ s, f.call.LaidOut space text.toList
  all : ∀ f ∈ s, ∃ text ∈ texts, f.call.LaidOut space text.toList

theorem State.listedAs_texts (s : State) : s.ListedAs Text.isSpace s.texts.toList := by
  have mem_texts {text : String} : text ∈ s.texts.toList ↔ ∃ f ∈ s, f.text = text := by
    rw [Std.ExtTreeSet.mem_toList, State.mem_texts]
  refine ⟨fun text htext => ?_, fun f hf => ⟨f.text, mem_texts.mpr ⟨f, hf, rfl⟩, f.laidOut_text⟩⟩
  obtain ⟨f, hf, rfl⟩ := mem_texts.mp htext
  exact ⟨f, hf, f.laidOut_text⟩

namespace Problem
variable {v : Vocabulary} {p : Problem} {domain : Definition.Domain}
  {problem : Definition.Problem} {s t : State} {f : Fact} {text : String}

/-- Every fact is over a declared predicate, with as many arguments as declared, and these are
objects of the problem. -/
def WellFormed (p : Problem) (s : State) : Prop :=
  ∀ f ∈ s, p.vocabulary.Knows f ∧ p.vocabulary.Fits f

/-- The names of objects and predicates can be read, and an object is found by its name. -/
structure Legible (p : Problem) : Prop where
  coherent : p.objects.Coherent
  objects : ∀ o ∈ p.objects.objects, Text.isName o.name = true
  predicates : ∀ {name : String} {signature : Signature},
    p.predicates.get? name = some signature → Text.isName name = true

theorem MadeFrom.legible (made : MadeFrom domain problem v p) : p.Legible := by
  obtain ⟨types, -, readable, sound, -⟩ := Vocabulary.sound_ofDefinitions made.vocabulary
  have objects_eq := made.objects.trans sound.objects_eq
  refine ⟨made.objects ▸ made.coherent, fun o ho => ?_, fun {name signature} found => ?_⟩
  · have coherent := ObjectTable.coherent_ofList types
      ((domain.constants ++ problem.objects).map Object.of)
    rw [objects_eq, coherent.mem_objects_iff, ObjectTable.get?_ofList] at ho
    obtain ⟨d, hd, rfl⟩ := List.mem_map.mp (List.mem_of_find?_eq_some ho)
    exact (readable d hd).1
  · exact sound.readable (made.predicates ▸ found)

/-- Only the names of a fact tell whether it has the declared number of arguments. -/
theorem fits_iff_declares :
    v.Fits f ↔ v.Declares f.call.name f.call.arguments.length := by
  rw [Vocabulary.Fits, Fact.arity, Fact.call, List.length_map]

namespace Legible
variable (legible : p.Legible)
include legible

theorem readable (knows : p.vocabulary.Knows f) : f.call.Readable := by
  obtain ⟨signature, declared⟩ := Option.isSome_iff_exists.mp knows.predicate
  refine ⟨legible.predicates declared, fun name hname => ?_⟩
  obtain ⟨o, ho, rfl⟩ := List.mem_map.mp hname
  exact legible.objects o (knows.arguments o ho)

theorem object_eq_ok {name : String} {o : Object} :
    p.object name = .ok o ↔ name = o.name ∧ o ∈ p.objects.objects := by
  have found : p.object name = .ok o ↔ p.objects.get? name = some o := by
    rw [object]
    cases p.objects.get? name <;> simp
  rw [found, legible.coherent.get?_eq_some_iff, and_comm, eq_comm]

theorem mapM_object_eq_ok {names : List String} {os : List Object} :
    names.mapM p.object = .ok os ↔ names = os.map Object.name ∧ ∀ o ∈ os, o ∈ p.objects.objects := by
  rw [mapM_eq_ok]
  simp only [legible.object_eq_ok]
  induction names generalizing os with
  | nil => cases os <;> simp
  | cons name names ih => cases os <;> simp [ih]; tauto

theorem mapM_object {os : List Object} (known : ∀ o ∈ os, o ∈ p.objects.objects) :
    (os.map Object.name).mapM p.object = .ok os :=
  legible.mapM_object_eq_ok.mpr ⟨rfl, known⟩

/-- The texts of a fact are its layouts, if the fact is over a declared predicate with the declared
number of arguments and these are objects of the problem. No other fact has texts. -/
theorem readFact_eq_ok_iff : p.readFact text = .ok f ↔
    (p.vocabulary.Knows f ∧ p.vocabulary.Fits f) ∧ f.call.LaidOut Text.isSpace text.toList := by
  rw [readFact, bind_eq_ok]
  constructor
  · rintro ⟨call, read, done⟩
    obtain ⟨-, laid⟩ := Text.Call.read_eq_ok_iff.mp read
    split at done
    · cases done
    · next signature declared =>
      obtain ⟨os, named, rfl⟩ := bind_pure_eq_ok.mp done
      rw [arguments] at named
      split at named
      · next arity =>
        obtain ⟨names, known⟩ := legible.mapM_object_eq_ok.mp named
        have same : Fact.call ⟨call.name, os⟩ = call := by rw [Fact.call, ← names]
        have fits : p.vocabulary.Fits ⟨call.name, os⟩ :=
          fits_iff_declares.mpr ⟨signature, declared, by rw [same, arity]⟩
        exact ⟨⟨⟨fits.isSome, known⟩, fits⟩, same.symm ▸ laid⟩
      · cases named
  · rintro ⟨⟨knows, fits⟩, laid⟩
    obtain ⟨signature, declared, arity⟩ := fits_iff_declares.mp fits
    have found : p.predicates.get? f.call.name = some signature := declared
    refine ⟨f.call, Text.Call.read_of_laidOut (legible.readable knows) laid, ?_⟩
    simp only [found]
    rw [arguments, if_pos arity, Fact.call, legible.mapM_object knows.arguments]
    rfl

theorem readState_eq_ok_iff {texts : List String} :
    p.readState texts = .ok s ↔ p.WellFormed s ∧ s.ListedAs Text.isSpace texts := by
  rw [readState, bind_pure_eq_ok]
  constructor
  · rintro ⟨facts, read, rfl⟩
    have read := mapM_eq_ok.mp read
    refine ⟨fun f hf => ?_, fun text htext => ?_, fun f hf => ?_⟩
    · obtain ⟨text, -, read⟩ := exists_of_mem_right read (State.mem_ofList.mp hf)
      exact (legible.readFact_eq_ok_iff.mp read).1
    · obtain ⟨f, hf, read⟩ := exists_of_mem_left read htext
      exact ⟨f, State.mem_ofList.mpr hf, (legible.readFact_eq_ok_iff.mp read).2⟩
    · obtain ⟨text, htext, read⟩ := exists_of_mem_right read (State.mem_ofList.mp hf)
      exact ⟨text, htext, (legible.readFact_eq_ok_iff.mp read).2⟩
  · rintro ⟨wellFormed, listed⟩
    have each : ∀ text ∈ texts, ∃ f ∈ s, p.readFact text = .ok f := by
      intro text htext
      obtain ⟨f, hf, laid⟩ := listed.only text htext
      exact ⟨f, hf, legible.readFact_eq_ok_iff.mpr ⟨wellFormed f hf, laid⟩⟩
    obtain ⟨facts, read⟩ : ∃ facts, texts.mapM p.readFact = .ok facts := by
      refine exists_ok (failsOnly_mapM fun text htext e failed => ?_)
      obtain ⟨f, -, read⟩ := each text htext
      cases failed.symm.trans read
    refine ⟨facts, read, State.ext fun f => ?_⟩
    have read := mapM_eq_ok.mp read
    rw [State.mem_ofList]
    constructor
    · intro hf
      obtain ⟨text, htext, laid⟩ := listed.all f hf
      obtain ⟨f', hf', readFact'⟩ := exists_of_mem_left read htext
      have readFact := legible.readFact_eq_ok_iff.mpr ⟨wellFormed f hf, laid⟩
      exact Except.ok.inj (readFact'.symm.trans readFact) ▸ hf'
    · intro hf
      obtain ⟨text, htext, readFact⟩ := exists_of_mem_right read hf
      obtain ⟨f', hf', readFact'⟩ := each text htext
      exact Except.ok.inj (readFact'.symm.trans readFact) ▸ hf'

theorem readTexts_texts_of_wellFormed (wellFormed : p.WellFormed s) :
    p.readTexts s.texts = .ok s :=
  legible.readState_eq_ok_iff.mpr ⟨wellFormed, s.listedAs_texts⟩

theorem readTexts_texts (known : ∀ f ∈ s, p.vocabulary.Knows f) :
    p.readTexts s.texts = .ok s ↔ ∀ f ∈ s, p.vocabulary.Fits f := by
  constructor
  · exact fun back f hf => ((legible.readState_eq_ok_iff.mp back).1 f hf).2
  · exact fun fits => legible.readTexts_texts_of_wellFormed fun f hf => ⟨known f hf, fits f hf⟩

end Legible

/-- A well-formed state is read from any listing of its texts: in any order, repeated, each with or
without brackets and with any spaces between and around its names. From other texts it is not read.
So two such states with the same texts are the same, and all that is read as a fact belongs to one
of them and is read from its own text too. -/
theorem readState_faithful (built : ofDefinitions domain problem = .ok p) :
    (∀ (s : State) (texts : List String), p.readState texts = .ok s ↔
      p.WellFormed s ∧ s.ListedAs Text.isSpace texts) ∧
    (∀ s t : State, p.WellFormed s → p.WellFormed t → s.texts = t.texts → s = t) ∧
    ∀ (text : String) (f : Fact), p.readFact text = .ok f →
      (∃ s, p.WellFormed s ∧ f ∈ s) ∧ p.readFact f.text = .ok f := by
  obtain ⟨v, made⟩ := madeFrom_of_ofDefinitions built
  have legible := made.legible
  refine ⟨fun s texts => legible.readState_eq_ok_iff, fun s t hs ht same => ?_,
    fun text f read => ?_⟩
  · have back := legible.readTexts_texts_of_wellFormed hs
    have back' := legible.readTexts_texts_of_wellFormed ht
    rw [same, back'] at back
    exact (Except.ok.inj back).symm
  · obtain ⟨suits, -⟩ := legible.readFact_eq_ok_iff.mp read
    refine ⟨⟨.ofList [f], fun f' hf' => ?_, State.mem_ofList.mpr (List.mem_singleton_self f)⟩,
      legible.readFact_eq_ok_iff.mpr ⟨suits, f.laidOut_text⟩⟩
    obtain rfl := List.mem_singleton.mp (State.mem_ofList.mp hf')
    exact suits

/-- Two facts from three texts, one of which is a second text of the same fact. -/
theorem readState_faithful_lamps : ∃ p, ofDefinitions lampDomain lampProblem = .ok p ∧
    ∃ s, p.WellFormed s ∧
      s.ListedAs Text.isSpace ["( wired\tleft\n bulb )", " on  left ", "(on left)"] ∧
      s.toList = [⟨"on", [⟨"left", "switch"⟩]⟩,
        ⟨"wired", [⟨"left", "switch"⟩, ⟨"bulb", "lamp"⟩]⟩] := by
  have built : ∃ p, ofDefinitions lampDomain lampProblem = .ok p ∧
      ((p.readState ["( wired\tleft\n bulb )", " on  left ", "(on left)"]).toOption.any fun s =>
        decide (s.toList = [⟨"on", [⟨"left", "switch"⟩]⟩,
          ⟨"wired", [⟨"left", "switch"⟩, ⟨"bulb", "lamp"⟩]⟩])) = true := by
    refine exists_ok_and ?_
    decide +kernel
  obtain ⟨p, built, passes⟩ := built
  obtain ⟨s, read, listed⟩ := exists_ok_and passes
  obtain ⟨wellFormed, listedAs⟩ := ((readState_faithful built).1 _ _).mp read
  exact ⟨p, built, s, wellFormed, listedAs, listed⟩

def isAsciiSpace (c : Char) : Bool := Text.isSpace c || c == '\x0c'

/-- A form feed is white space, but it does not separate names. -/
theorem readState_form_feed : ∃ p, ofDefinitions lampDomain lampProblem = .ok p ∧
    ∃ s, p.WellFormed s ∧ s.ListedAs isAsciiSpace ["on\x0cleft"] ∧
      p.readState ["on\x0cleft"] = .error (.call (.malformed "on\x0cleft")) := by
  have built : ∃ p, ofDefinitions lampDomain lampProblem = .ok p ∧
      p.readFact "on left" = .ok ⟨"on", [⟨"left", "switch"⟩]⟩ ∧
      p.readFact "on\x0cleft" = .error (.call (.malformed "on\x0cleft")) := by
    refine exists_ok_and ?_
    decide +kernel
  obtain ⟨p, built, read, refused⟩ := built
  obtain ⟨v, made⟩ := madeFrom_of_ofDefinitions built
  obtain ⟨suits, -⟩ := made.legible.readFact_eq_ok_iff.mp read
  have laid : (Fact.call ⟨"on", [⟨"left", "switch"⟩]⟩).LaidOut isAsciiSpace
      ([] ++ ("on".toList ++ ((['\x0c'] ++ ("left".toList ++ [])) ++ []))) :=
    .bare Text.onlySpaces_nil (.cons (by decide) (by simp [Text.OnlySpaces, isAsciiSpace]) .nil)
      Text.onlySpaces_nil
  refine ⟨p, built, .ofList [Fact.mk "on" [⟨"left", "switch"⟩]], fun f hf => ?_, ⟨?_, ?_⟩, ?_⟩
  · obtain rfl := List.mem_singleton.mp (State.mem_ofList.mp hf)
    exact suits
  · rintro text htext
    obtain rfl := List.mem_singleton.mp htext
    exact ⟨_, State.mem_ofList.mpr (List.mem_singleton_self _), laid⟩
  · intro f hf
    obtain rfl := List.mem_singleton.mp (State.mem_ofList.mp hf)
    exact ⟨_, List.mem_singleton_self _, laid⟩
  · rw [readState, List.mapM_cons, refused]
    rfl

end Problem
end TypedPlanning
