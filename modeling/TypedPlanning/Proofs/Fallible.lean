import Mathlib.Data.List.Forall2

/-! Sequences of steps that may fail: when a whole sequence succeeds, and with which errors it can
fail. -/

namespace TypedPlanning
namespace Fallible
variable {ε α β : Type}

theorem exists_of_mem_right {R : α → β → Prop} {as : List α} {bs : List β}
    (related : List.Forall₂ R as bs) {b : β} (hb : b ∈ bs) : ∃ a ∈ as, R a b := by
  induction related with
  | nil => cases hb
  | cons first _ ih =>
    obtain rfl | hb := List.mem_cons.mp hb
    · exact ⟨_, List.mem_cons_self, first⟩
    · obtain ⟨a, ha, related⟩ := ih hb
      exact ⟨a, List.mem_cons_of_mem _ ha, related⟩

theorem exists_of_mem_left {R : α → β → Prop} {as : List α} {bs : List β}
    (related : List.Forall₂ R as bs) {a : α} (ha : a ∈ as) : ∃ b ∈ bs, R a b :=
  exists_of_mem_right (R := flip R) (.flip related) ha

theorem forall_mem_iff_of_forall₂ {R : α → β → Prop} {P : α → Prop} {Q : β → Prop} {as : List α}
    {bs : List β} (related : List.Forall₂ R as bs) (same : ∀ a ∈ as, ∀ b, R a b → (P a ↔ Q b)) :
    (∀ a ∈ as, P a) ↔ ∀ b ∈ bs, Q b := by
  constructor
  · intro all b hb
    obtain ⟨a, ha, first⟩ := exists_of_mem_right related hb
    exact (same a ha b first).mp (all a ha)
  · intro all a ha
    obtain ⟨b, hb, first⟩ := exists_of_mem_left related ha
    exact (same a ha b first).mpr (all b hb)

theorem exists_mem_iff_of_forall₂ {R : α → β → Prop} {P : α → Prop} {Q : β → Prop} {as : List α}
    {bs : List β} (related : List.Forall₂ R as bs) (same : ∀ a ∈ as, ∀ b, R a b → (P a ↔ Q b)) :
    (∃ a ∈ as, P a) ↔ ∃ b ∈ bs, Q b := by
  constructor
  · rintro ⟨a, ha, holds⟩
    obtain ⟨b, hb, first⟩ := exists_of_mem_left related ha
    exact ⟨b, hb, (same a ha b first).mp holds⟩
  · rintro ⟨b, hb, holds⟩
    obtain ⟨a, ha, first⟩ := exists_of_mem_right related hb
    exact ⟨a, ha, (same a ha b first).mpr holds⟩

theorem exists_forall₂ {R : α → β → Prop} {as : List α} (each : ∀ a ∈ as, ∃ b, R a b) :
    ∃ bs, List.Forall₂ R as bs := by
  induction as with
  | nil => exact ⟨[], .nil⟩
  | cons a as ih =>
    obtain ⟨b, first⟩ := each a List.mem_cons_self
    obtain ⟨bs, rest⟩ := ih fun a ha => each a (List.mem_cons_of_mem _ ha)
    exact ⟨b :: bs, .cons first rest⟩

theorem forall₂_iff_of_forall₂ {γ : Type} {T : α → β → Prop} {R : α → γ → Prop}
    {S : β → γ → Prop} {as : List α} {bs : List β} (related : List.Forall₂ T as bs)
    (same : ∀ a b, T a b → ∀ c, S b c ↔ R a c) {cs : List γ} :
    List.Forall₂ S bs cs ↔ List.Forall₂ R as cs := by
  induction related generalizing cs with
  | nil => simp only [List.forall₂_nil_left_iff]
  | cons first _ ih => simp only [List.forall₂_cons_left_iff, same _ _ first, ih]

theorem forall₂_trans {γ : Type} {R : α → β → Prop} {S : β → γ → Prop} {T : α → γ → Prop}
    {as : List α} {bs : List β} {cs : List γ} (each : ∀ a b c, R a b → S b c → T a c)
    (first : List.Forall₂ R as bs) (second : List.Forall₂ S bs cs) : List.Forall₂ T as cs := by
  induction first generalizing cs with
  | nil =>
    cases second
    exact .nil
  | cons here _ ih =>
    obtain ⟨c, cs, there, rest, rfl⟩ := List.forall₂_cons_left_iff.mp second
    exact .cons (each _ _ _ here there) (ih rest)

theorem find?_of_forall₂ {R : α → β → Prop} {as : List α} {bs : List β}
    {f : α → Bool} {g : β → Bool} (related : List.Forall₂ R as bs)
    (agree : ∀ a b, R a b → f a = g b) {b : β} (found : bs.find? g = some b) :
    ∃ a, as.find? f = some a ∧ R a b := by
  induction related with
  | nil => cases found
  | @cons a b' as bs first _ ih =>
    have same := agree a b' first
    rw [List.find?_cons] at found ⊢
    cases passes : g b' with
    | false =>
      rw [passes] at found same
      rw [same]
      exact ih found
    | true =>
      rw [passes] at found same
      obtain rfl := Option.some.inj found
      exact ⟨a, by rw [same], first⟩

@[simp] theorem ok_bind (a : α) (f : α → Except ε β) : Except.ok a >>= f = f a := rfl

@[simp] theorem error_bind (e : ε) (f : α → Except ε β) :
    Except.error e >>= f = Except.error e := rfl

theorem bind_eq_ok {x : Except ε α} {f : α → Except ε β} {b : β} :
    x >>= f = .ok b ↔ ∃ a, x = .ok a ∧ f a = .ok b := by
  cases x <;> simp [bind, Except.bind]

theorem bind_pure_eq_ok {x : Except ε α} {f : α → β} {b : β} :
    (x >>= fun a => pure (f a)) = .ok b ↔ ∃ a, x = .ok a ∧ b = f a := by
  cases x <;> simp [bind, Except.bind, pure, Except.pure, eq_comm]

theorem map_eq_ok {x : Except ε α} {f : α → β} {b : β} :
    x.map f = .ok b ↔ ∃ a, x = .ok a ∧ f a = b := by
  cases x <;> simp [Except.map]

theorem map_eq_error {x : Except ε α} (f : α → β) {e : ε} :
    x.map f = .error e ↔ x = .error e := by
  cases x <;> simp [Except.map]

theorem mapError_eq_ok {ε' : Type} {x : Except ε α} (f : ε → ε') {a : α} :
    x.mapError f = .ok a ↔ x = .ok a := by
  cases x <;> simp [Except.mapError]

theorem mapM_eq_ok {f : α → Except ε β} {as : List α} {bs : List β} :
    as.mapM f = .ok bs ↔ List.Forall₂ (fun a b => f a = .ok b) as bs := by
  induction as generalizing bs with
  | nil => simp [pure, Except.pure, eq_comm]
  | cons a as ih =>
    simp only [List.mapM_cons, bind_eq_ok, ih, List.forall₂_cons_left_iff]
    constructor
    · rintro ⟨b, hb, bs', hbs, same⟩
      obtain rfl := Except.ok.inj same
      exact ⟨b, bs', hb, hbs, rfl⟩
    · rintro ⟨b, bs', hb, hbs, rfl⟩
      exact ⟨b, hb, bs', hbs, rfl⟩

theorem mapM_checked {P : α → Prop} {g : α → β} {f : α → Except ε β} {as : List α} {bs : List β}
    (checked : ∀ a b, f a = .ok b ↔ P a ∧ b = g a) :
    as.mapM f = .ok bs ↔ (∀ a ∈ as, P a) ∧ bs = as.map g := by
  simp only [mapM_eq_ok, checked, List.forall₂_and_left]
  refine and_congr_right fun _ => ?_
  have mapped : List.Forall₂ (· = ·) bs (as.map g) ↔ bs = as.map g := by
    rw [List.forall₂_eq_eq_eq]
  rw [← mapped, List.forall₂_map_right_iff]
  exact ⟨fun same => .flip same, fun same => .flip same⟩

def yes : Except ε Bool → Bool
  | .ok b => b
  | .error _ => false

theorem yes_iff {x : Except ε Bool} : yes x = true ↔ x = .ok true := by
  cases x <;> simp [yes]

/-- A loop that keeps what passes a test comes through if every test does. -/
theorem forIn_keep_eq_ok {f : α → Except ε Bool} {as : List α} (kept : Array α) {out : Array α} :
    (forIn as kept fun a kept => do
        if ← f a then pure (ForInStep.yield (kept.push a)) else pure (ForInStep.yield kept)) =
      .ok out ↔
        (∀ a ∈ as, ∃ b, f a = .ok b) ∧
          out.toList = kept.toList ++ as.filter fun a => yes (f a) := by
  induction as generalizing kept with
  | nil => simp [pure, Except.pure, ← Array.toList_inj, eq_comm]
  | cons a as ih =>
    rw [List.forIn_cons, List.forall_mem_cons]
    cases tested : f a with
    | error e => simp
    | ok b =>
      cases b with
      | false =>
        rw [List.filter_cons_of_neg (by simp [tested, yes])]
        simpa using ih kept
      | true =>
        rw [List.filter_cons_of_pos (by simp [tested, yes])]
        simpa using ih (kept.push a)

theorem foldlM_cons_of_ok {f : β → α → Except ε β} {b b' : β} {a : α} (first : f b a = .ok b')
    (as : List α) : (a :: as).foldlM f b = as.foldlM f b' := by
  rw [List.foldlM_cons, first, ok_bind]

theorem foldlM_append_of_ok {f : β → α → Except ε β} {b b' : β} {as : List α}
    (first : as.foldlM f b = .ok b') (as' : List α) :
    (as ++ as').foldlM f b = as'.foldlM f b' := by
  rw [List.foldlM_append, first, ok_bind]

/-- A fold that succeeds keeps what each of its steps keeps. -/
theorem foldlM_invariant {P : β → Prop} {f : β → α → Except ε β} {as : List α} {b b' : β}
    (step : ∀ c, ∀ a ∈ as, ∀ c', P c → f c a = .ok c' → P c') (start : P b)
    (done : as.foldlM f b = .ok b') : P b' := by
  induction as generalizing b with
  | nil =>
    obtain rfl := Except.ok.inj done
    exact start
  | cons a as ih =>
    rw [List.foldlM_cons] at done
    obtain ⟨c, first, rest⟩ := bind_eq_ok.mp done
    have kept : P c := step b a List.mem_cons_self c start first
    exact ih (fun c a ha => step c a (List.mem_cons_of_mem _ ha)) kept rest

/-- The answer, if one comes, says whether the statement holds. -/
def Answers (x : Except ε Bool) (P : Prop) : Prop := ∀ b, x = .ok b → (b = true ↔ P)

theorem answers_pure {b : Bool} {P : Prop} (same : b = true ↔ P) :
    Answers (.ok b : Except ε Bool) P := by
  rintro _ ⟨⟩
  exact same

theorem Answers.not {x : Except ε Bool} {P : Prop} (hx : Answers x P) :
    Answers (x >>= fun b => .ok !b) (¬ P) := by
  intro b hb
  obtain ⟨c, hc, same⟩ := bind_eq_ok.mp hb
  obtain rfl := Except.ok.inj same
  rw [← hx c hc]
  simp

theorem answers_allM {p : α → Except ε Bool} {P : α → Prop} {as : List α}
    (hp : ∀ a ∈ as, Answers (p a) (P a)) : Answers (as.allM p) (∀ a ∈ as, P a) := by
  induction as with
  | nil => exact answers_pure (by simp)
  | cons a as ih =>
    intro b hb
    rw [List.allM_cons] at hb
    obtain ⟨c, hc, rest⟩ := bind_eq_ok.mp hb
    have first := hp a List.mem_cons_self c hc
    rw [List.forall_mem_cons, ← first]
    cases c with
    | false =>
      obtain rfl := Except.ok.inj rest
      simp
    | true => simpa using ih (fun a ha => hp a (List.mem_cons_of_mem _ ha)) b rest

theorem answers_anyM {p : α → Except ε Bool} {P : α → Prop} {as : List α}
    (hp : ∀ a ∈ as, Answers (p a) (P a)) : Answers (as.anyM p) (∃ a ∈ as, P a) := by
  induction as with
  | nil => exact answers_pure (by simp)
  | cons a as ih =>
    intro b hb
    rw [List.anyM_cons] at hb
    obtain ⟨c, hc, rest⟩ := bind_eq_ok.mp hb
    have first := hp a List.mem_cons_self c hc
    simp only [List.mem_cons, exists_eq_or_imp, ← first]
    cases c with
    | true =>
      obtain rfl := Except.ok.inj rest
      simp
    | false => simpa using ih (fun a ha => hp a (List.mem_cons_of_mem _ ha)) b rest

def FailsOnly (allowed : ε → Prop) (x : Except ε α) : Prop := ∀ e, x = .error e → allowed e

variable {allowed : ε → Prop}

theorem failsOnly_ok (a : α) : FailsOnly allowed (.ok a) := by
  rintro _ ⟨⟩

theorem failsOnly_error {e : ε} (h : allowed e) : FailsOnly allowed (.error e : Except ε α) := by
  rintro _ ⟨⟩
  exact h

theorem failsOnly_of_exists {x : Except ε α} (returns : ∃ a, x = .ok a) : FailsOnly allowed x := by
  obtain ⟨a, rfl⟩ := returns
  exact failsOnly_ok a

theorem FailsOnly.mono {wider : ε → Prop} {x : Except ε α} (hx : FailsOnly allowed x)
    (wide : ∀ e, allowed e → wider e) : FailsOnly wider x := fun e he => wide e (hx e he)

theorem FailsOnly.bind {x : Except ε α} {f : α → Except ε β} (hx : FailsOnly allowed x)
    (hf : ∀ a, x = .ok a → FailsOnly allowed (f a)) : FailsOnly allowed (x >>= f) := by
  intro e he
  cases x with
  | error e' =>
    obtain rfl : e' = e := Except.error.inj he
    exact hx e' rfl
  | ok a => exact hf a rfl e he

theorem failsOnly_mapM {f : α → Except ε β} {as : List α}
    (hf : ∀ a ∈ as, FailsOnly allowed (f a)) : FailsOnly allowed (as.mapM f) := by
  induction as with
  | nil => exact failsOnly_ok []
  | cons a as ih =>
    rw [List.mapM_cons]
    refine (hf a List.mem_cons_self).bind fun b _ => ?_
    exact (ih fun a ha => hf a (List.mem_cons_of_mem _ ha)).bind fun bs _ => failsOnly_ok _

theorem failsOnly_allM {p : α → Except ε Bool} {as : List α}
    (hp : ∀ a ∈ as, FailsOnly allowed (p a)) : FailsOnly allowed (as.allM p) := by
  induction as with
  | nil => exact failsOnly_ok true
  | cons a as ih =>
    rw [List.allM_cons]
    refine (hp a List.mem_cons_self).bind fun b _ => ?_
    cases b with
    | false => exact failsOnly_ok false
    | true => exact ih fun a ha => hp a (List.mem_cons_of_mem _ ha)

theorem failsOnly_anyM {p : α → Except ε Bool} {as : List α}
    (hp : ∀ a ∈ as, FailsOnly allowed (p a)) : FailsOnly allowed (as.anyM p) := by
  induction as with
  | nil => exact failsOnly_ok false
  | cons a as ih =>
    rw [List.anyM_cons]
    refine (hp a List.mem_cons_self).bind fun b _ => ?_
    cases b with
    | true => exact failsOnly_ok true
    | false => exact ih fun a ha => hp a (List.mem_cons_of_mem _ ha)

theorem failsOnly_foldlM {f : β → α → Except ε β} {as : List α}
    (hf : ∀ b, ∀ a ∈ as, FailsOnly allowed (f b a)) (b : β) :
    FailsOnly allowed (as.foldlM f b) := by
  induction as generalizing b with
  | nil => exact failsOnly_ok b
  | cons a as ih =>
    rw [List.foldlM_cons]
    refine (hf b a List.mem_cons_self).bind fun b _ => ?_
    exact ih (fun b a ha => hf b a (List.mem_cons_of_mem _ ha)) b

theorem failsOnly_forIn {f : α → β → Except ε (ForInStep β)} {as : List α} {b : β}
    (hf : ∀ a ∈ as, ∀ b, FailsOnly allowed (f a b)) : FailsOnly allowed (forIn as b f) := by
  induction as generalizing b with
  | nil => exact failsOnly_ok b
  | cons a as ih =>
    rw [List.forIn_cons]
    refine (hf a List.mem_cons_self b).bind fun step _ => ?_
    cases step with
    | done b => exact failsOnly_ok b
    | yield b => exact ih fun a ha => hf a (List.mem_cons_of_mem _ ha)

theorem exists_ok {x : Except ε α} (never : FailsOnly (fun _ => False) x) : ∃ a, x = .ok a := by
  cases x with
  | error e => exact (never e rfl).elim
  | ok a => exact ⟨a, rfl⟩

/-- A test of what comes out tells that something comes out. -/
theorem exists_ok_and {x : Except ε α} {P : α → Prop} [DecidablePred P]
    (passes : x.toOption.any (fun a => decide (P a)) = true) : ∃ a, x = .ok a ∧ P a := by
  cases x with
  | error e => cases passes
  | ok a => exact ⟨a, rfl, of_decide_eq_true passes⟩

/-- Both fail with the same error, or both return, and what they return is related. -/
inductive Agree (R : α → β → Prop) : Except ε α → Except ε β → Prop
  | ok {a : α} {b : β} (related : R a b) : Agree R (.ok a) (.ok b)
  | error (e : ε) : Agree R (.error e) (.error e)

section Agree
variable {γ δ : Type} {R : α → β → Prop} {S : γ → δ → Prop}

theorem Agree.bind {x : Except ε α} {y : Except ε β} {f : α → Except ε γ} {g : β → Except ε δ}
    (agree : Agree R x y) (step : ∀ a b, R a b → Agree S (f a) (g b)) :
    Agree S (x >>= f) (y >>= g) := by
  cases agree with
  | ok related => exact step _ _ related
  | error e => exact .error e

theorem Agree.exists_ok {x : Except ε α} {y : Except ε β} (agree : Agree R x y) {a : α}
    (done : x = .ok a) : ∃ b, y = .ok b ∧ R a b := by
  subst done
  cases agree with
  | ok related => exact ⟨_, rfl, related⟩

theorem agree_foldlM {f : α → γ → Except ε α} {g : β → γ → Except ε β} {cs : List γ}
    (step : ∀ a b c, R a b → Agree R (f a c) (g b c)) {a : α} {b : β} (start : R a b) :
    Agree R (cs.foldlM f a) (cs.foldlM g b) := by
  induction cs generalizing a b with
  | nil => exact .ok start
  | cons c cs ih =>
    rw [List.foldlM_cons, List.foldlM_cons]
    exact (step a b c start).bind fun a b related => ih related

theorem agree_mapM {f : γ → Except ε α} {g : γ → Except ε β} {cs : List γ}
    (each : ∀ c ∈ cs, Agree R (f c) (g c)) :
    Agree (List.Forall₂ R) (cs.mapM f) (cs.mapM g) := by
  induction cs with
  | nil => exact .ok .nil
  | cons c cs ih =>
    obtain ⟨first, rest⟩ := List.forall_mem_cons.mp each
    rw [List.mapM_cons, List.mapM_cons]
    refine first.bind fun a b related => (ih rest).bind fun as bs others => ?_
    exact .ok (.cons related others)

end Agree

end Fallible
end TypedPlanning
