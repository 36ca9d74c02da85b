import TypedPlanning.Action
import TypedPlanning.Proofs.Change

/-! Changes to a current state, seen from the state they leave. Closing under rules is a sequence of
such changes. It keeps what every single rule keeps, and derives nothing but instances of heads. -/

namespace TypedPlanning
open Fallible Evaluation

namespace Update
variable {α β : Type}

def result (x : Update α) (s : State) : Except Error State :=
  match x.run s with
  | .ok _ s' => .ok s'
  | .error e _ => .error e

@[simp] theorem result_pure (a : α) (s : State) : result (pure a) s = .ok s := rfl

theorem result_bind (x : Update α) (f : α → Update β) (s : State) :
    result (x >>= f) s = match x.run s with
      | .ok a s' => result (f a) s'
      | .error e _ => .error e := by
  rw [result, EStateM.run_bind]
  cases x.run s <;> rfl

/-- Where no value is handed on, the second change starts from the result of the first. -/
theorem result_bind_of_forall {x : Update α} {f : α → Update β} {k : State → Except Error State}
    (same : ∀ a s, result (f a) s = k s) (s : State) : result (x >>= f) s = result x s >>= k := by
  rw [result_bind, result]
  cases x.run s with
  | ok a s' => exact same a s'
  | error e s' => rfl

theorem result_change (f : State → Except Error Delta) (s : State) :
    result (do let d ← ofExcept (f (← get)); modifyGet d.update : Update Bool) s =
      return (← f s).apply s := by
  rw [result_bind]
  show result (ofExcept (f s) >>= fun d => modifyGet d.update) s = _
  rw [result_bind]
  cases f s with
  | error e => rfl
  | ok d => exact congrArg Except.ok (Delta.snd_update d s)

/-- Where the change succeeds, it leads from states with the property to states with it. -/
def Preserves (P : State → Prop) (x : Update α) : Prop :=
  ∀ s s', P s → x.result s = .ok s' → P s'

variable {P : State → Prop}

theorem preserves_pure (a : α) : Preserves P (pure a) := by
  rintro s _ hs ⟨⟩
  exact hs

theorem Preserves.bind {x : Update α} {f : α → Update β} (hx : Preserves P x)
    (hf : ∀ a, Preserves P (f a)) : Preserves P (x >>= f) := by
  intro s s' hs done
  rw [result_bind] at done
  cases ran : x.run s with
  | error e t =>
    rw [ran] at done
    cases done
  | ok a t =>
    rw [ran] at done
    exact hf a t s' (hx s t hs (by rw [result, ran])) done

theorem failsOnly_bind {allowed : Error → Prop} {x : Update α} {f : α → Update β} {s : State}
    (hx : FailsOnly allowed (x.result s)) (hf : ∀ a s, FailsOnly allowed ((f a).result s)) :
    FailsOnly allowed ((x >>= f).result s) := by
  rw [result] at hx
  rw [result_bind]
  cases ran : x.run s with
  | error e t =>
    rw [ran] at hx
    exact hx
  | ok a t => exact hf a t

end Update

namespace Action

theorem assign_eq_ok_iff {a : Action} {objects : ObjectTable} {arguments : List Object}
    {g : Assignment} : a.assign objects arguments = .ok g ↔
      List.Forall₂ (fun o (p : Parameter) => objects.satisfies o p.type = true) arguments
        a.parameters ∧ g = .ofArguments a.parameters arguments := by
  have fitting : List.Forall₂ (fun o (p : Parameter) => objects.satisfies o p.type = true)
      arguments a.parameters ↔ arguments.length = a.arity ∧
        ∀ pair ∈ a.parameters.zip arguments, objects.satisfies pair.2 pair.1.type = true := by
    have flipped : List.Forall₂ (fun o (p : Parameter) => objects.satisfies o p.type = true)
        arguments a.parameters ↔ List.Forall₂
          (fun (p : Parameter) o => objects.satisfies o p.type = true) a.parameters arguments :=
      ⟨fun fits => .flip fits, fun fits => .flip fits⟩
    rw [flipped, List.forall₂_iff_zip, eq_comm, arity]
    simp only [Prod.forall]
  rw [assign, fitting]
  split
  · next uneven => simp [uneven]
  · next even =>
    split
    · next p o found =>
      have refused := List.find?_some found
      have there := List.mem_of_find?_eq_some found
      refine iff_of_false (fun same => nomatch same) fun ⟨accepted, _⟩ => ?_
      simp [accepted.2 _ there] at refused
    · next none_found =>
      have all := List.find?_eq_none.mp none_found
      simp only [Bool.not_eq_true', Bool.not_eq_false] at all
      rw [Except.ok.injEq, eq_comm]
      exact (and_iff_right ⟨not_not.mp even, all⟩).symm

theorem assign_eq_ok {a : Action} {objects : ObjectTable} {arguments : List Object}
    {g : Assignment} (assigned : a.assign objects arguments = .ok g) :
    arguments.length = a.parameters.length ∧ g = .ofArguments a.parameters arguments := by
  obtain ⟨accepted, bound⟩ := assign_eq_ok_iff.mp assigned
  exact ⟨accepted.length_eq, bound⟩

/-- What an action accepts of the objects of a table are the tuples of candidates. -/
theorem mem_tuples_iff_assign {a : Action} {objects : ObjectTable} (coherent : objects.Coherent)
    {arguments : List Object} : arguments ∈ (Candidates.of objects a.parameters).tuples ↔
      (∀ o ∈ arguments, o ∈ objects.objects) ∧ ∃ g, a.assign objects arguments = .ok g := by
  simp only [assign_eq_ok_iff, exists_and_left, exists_eq, and_true]
  rw [coherent.mem_tuples_iff, ObjectTable.Admits, List.forall₂_and_left]

theorem result_update (a : Action) (objects : ObjectTable) (arguments : List Object) (s : State) :
    (a.update objects arguments).result s = a.apply objects s arguments :=
  Update.result_change (fun s => a.delta objects s arguments) s

end Action

namespace Rule
variable {objects : ObjectTable} {rules : List Rule} {s s' : State}

theorem result_fire (r : Rule) (s : State) : (r.fire objects).result s =
    return (← (Delta.ofEffects ⟨objects, s⟩ r.effects).outcome .empty).apply s :=
  Update.result_change (fun s => (Delta.ofEffects ⟨objects, s⟩ r.effects).outcome .empty) s

variable {P : State → Prop}

theorem preserves_sweep (hfire : ∀ r ∈ rules, Update.Preserves P (r.fire objects)) :
    Update.Preserves P (sweep objects rules) := by
  induction rules with
  | nil => exact Update.preserves_pure false
  | cons r rules ih =>
    obtain ⟨first, rest⟩ := List.forall_mem_cons.mp hfire
    exact first.bind fun new => (ih rest).bind fun later => Update.preserves_pure _

theorem preserves_sweeps (hfire : ∀ r ∈ rules, Update.Preserves P (r.fire objects)) (n : Nat) :
    Update.Preserves P (sweeps objects rules n) := by
  induction n with
  | zero => exact Update.preserves_pure false
  | succ n ih =>
    rw [sweeps]
    refine (preserves_sweep hfire).bind fun new => ?_
    cases new with
    | false => exact Update.preserves_pure false
    | true => exact ih.bind fun _ => Update.preserves_pure true

theorem preserves_close (hfire : ∀ r ∈ rules, Update.Preserves P (r.fire objects)) :
    Update.Preserves P (close objects rules) := preserves_sweeps hfire _

theorem failsOnly_close {allowed : Error → Prop}
    (hfire : ∀ r ∈ rules, ∀ s, FailsOnly allowed ((r.fire objects).result s)) (s : State) :
    FailsOnly allowed ((close objects rules).result s) := by
  have sweep_fails : ∀ s, FailsOnly allowed ((sweep objects rules).result s) := by
    induction rules with
    | nil => exact fun s => failsOnly_ok s
    | cons r rules ih =>
      obtain ⟨first, rest⟩ := List.forall_mem_cons.mp hfire
      exact fun s => Update.failsOnly_bind (first s) fun _ s =>
        Update.failsOnly_bind (ih rest s) fun _ s => failsOnly_ok s
  suffices all : ∀ n s, FailsOnly allowed ((sweeps objects rules n).result s) from all _ s
  intro n
  induction n with
  | zero => exact fun s => failsOnly_ok s
  | succ n ih =>
    intro s
    rw [sweeps]
    refine Update.failsOnly_bind (sweep_fails s) fun new s => ?_
    cases new with
    | false => exact failsOnly_ok s
    | true => exact Update.failsOnly_bind (ih s) fun _ s => failsOnly_ok s

/-- The fact is an instance of the head for arguments that the parameters admit. -/
def IsInstance (objects : ObjectTable) (r : Rule) (p : Fact) : Prop :=
  ∃ arguments, objects.Admits r.parameters arguments ∧
    r.head.Denotes (.ofArguments r.parameters arguments) p

/-- A rule deletes nothing, and adds its head wherever its body holds. -/
theorem change_effects (w : World) (r : Rule) :
    Effect.changeIn w r.effects .empty =
      ({p | ∃ arguments, w.objects.Admits r.parameters arguments ∧
        r.body.Satisfied w (.ofArguments r.parameters arguments) ∧
        r.head.Denotes (.ofArguments r.parameters arguments) p}, ∅) := by
  ext p
  · simp [effects, Effect.changeIn, Effect.change, Assignment.ofArguments, Prod.fst_iSup,
      and_left_comm]
  · simp [effects, Effect.changeIn, Effect.change, Prod.snd_iSup]

theorem mem_fire (coherent : objects.Coherent) {r : Rule}
    (fired : (r.fire objects).result s = .ok s') {p : Fact} :
    p ∈ s' ↔ p ∈ s ∨ ∃ arguments, objects.Admits r.parameters arguments ∧
      r.body.Satisfied ⟨objects, s⟩ (.ofArguments r.parameters arguments) ∧
      r.head.Denotes (.ofArguments r.parameters arguments) p := by
  rw [result_fire] at fired
  obtain ⟨d, hd, same⟩ := bind_eq_ok.mp fired
  obtain rfl := Except.ok.inj same
  have sets := (Delta.sets_ofEffects coherent hd).trans (change_effects _ r)
  have added : p ∈ d.add ↔ _ := Set.ext_iff.mp (congrArg Prod.fst sets) p
  have kept : p ∈ d.delete ↔ _ := Set.ext_iff.mp (congrArg Prod.snd sets) p
  rw [Delta.mem_apply, added, kept]
  simp [or_comm]

theorem failsOnly_fire {r : Rule} (closed : r.body.free ++ r.head.free ⊆
      r.parameters.map Parameter.variableName) (s : State) :
    FailsOnly (fun e => ∃ feature ∈ r.body.features, e = .unsupported feature)
      ((r.fire objects).result s) := by
  rw [result_fire]
  refine FailsOnly.bind ?_ fun _ _ => failsOnly_ok _
  refine (Delta.failsOnly_ofEffects r.effects .empty).mono fun e trouble => ?_
  obtain ⟨x, hx, -⟩ | ⟨feature, found, same⟩ := trouble
  · simp only [effects, Effect.freeIn, Effect.free, List.append_nil] at hx
    obtain ⟨free, outside⟩ := List.mem_filter.mp hx
    exact absurd (closed free) (of_decide_eq_true outside)
  · simp only [effects, Effect.featuresIn, Effect.features, List.append_nil] at found
    exact ⟨feature, found, same⟩

theorem preserves_instances (coherent : objects.Coherent) (s : State) :
    ∀ r ∈ rules, Update.Preserves
      (fun t => ∀ p ∈ t, p ∈ s ∨ ∃ r ∈ rules, r.IsInstance objects p) (r.fire objects) := by
  intro r hr t t' ht fired p hp
  obtain hp | ⟨arguments, admitted, -, denoted⟩ := (mem_fire coherent fired).mp hp
  · exact ht p hp
  · exact .inr ⟨r, hr, arguments, admitted, denoted⟩

theorem mem_sweep (coherent : objects.Coherent)
    (swept : (sweep objects rules).result s = .ok s') {p : Fact} (hp : p ∈ s') :
    p ∈ s ∨ ∃ r ∈ rules, r.IsInstance objects p :=
  preserves_sweep (preserves_instances coherent s) s s' (fun _ hq => .inl hq) swept p hp

/-- Whatever closing adds is an instance of the head of one of the rules. -/
theorem mem_close (coherent : objects.Coherent)
    (closed : (close objects rules).result s = .ok s') {p : Fact} (hp : p ∈ s') :
    p ∈ s ∨ ∃ r ∈ rules, r.IsInstance objects p :=
  preserves_close (preserves_instances coherent s) s s' (fun _ hq => .inl hq) closed p hp

end Rule
end TypedPlanning
