import TypedPlanning.Assignment

/-! Evaluations that leave the bindings as they found them. Each is a function from bindings to an
outcome, so a sequence, a quantifier or a loop of them can be computed on outcomes alone. -/

namespace TypedPlanning
namespace Evaluation
variable {α β : Type}

def reading (r : Assignment → Except Error α) : Evaluation α := fun g =>
  match r g with
  | .ok a => .ok a g
  | .error e => .error e g

theorem run_reading (r : Assignment → Except Error α) (g : Assignment) :
    (reading r).run g = match r g with
      | .ok a => .ok a g
      | .error e => .error e g := rfl

theorem eq_of_run {x y : Evaluation α} (same : ∀ g, x.run g = y.run g) : x = y := funext same

@[simp] theorem outcome_reading (r : Assignment → Except Error α) (g : Assignment) :
    (reading r).outcome g = r g := by
  rw [outcome, run_reading]
  cases r g <;> rfl

/-- The bindings afterwards, also after a failure, are those before. -/
def Restores (x : Evaluation α) : Prop := x = reading x.outcome

theorem restores_reading (r : Assignment → Except Error α) : Restores (reading r) :=
  congrArg reading (funext fun g => (outcome_reading r g).symm)

theorem Restores.run_eq {x : Evaluation α} (restores : Restores x) (g : Assignment) :
    x.run g = match x.outcome g with
      | .ok a => .ok a g
      | .error e => .error e g :=
  (congrArg (EStateM.run · g) restores).trans (run_reading _ g)

theorem restores_pure (a : α) : Restores (pure a) := restores_reading fun _ => .ok a

@[simp] theorem outcome_pure (a : α) (g : Assignment) :
    (pure a : Evaluation α).outcome g = .ok a := rfl

theorem restores_throw (e : Error) : Restores (throw e : Evaluation α) :=
  restores_reading fun _ => .error e

@[simp] theorem outcome_throw (e : Error) (g : Assignment) :
    (throw e : Evaluation α).outcome g = .error e := rfl

theorem restores_get : Restores (get : Evaluation Assignment) := restores_reading .ok

@[simp] theorem outcome_get (g : Assignment) : (get : Evaluation Assignment).outcome g = .ok g :=
  rfl

theorem outcome_bind {x : Evaluation α} {f : α → Evaluation β} (hx : Restores x) (g : Assignment) :
    (x >>= f).outcome g = x.outcome g >>= fun a => (f a).outcome g := by
  rw [outcome, EStateM.run_bind, hx.run_eq]
  cases x.outcome g <;> rfl

theorem Restores.bind {x : Evaluation α} {f : α → Evaluation β} (hx : Restores x)
    (hf : ∀ a, Restores (f a)) : Restores (x >>= f) := by
  refine eq_of_run fun g => ?_
  rw [run_reading, outcome_bind hx, EStateM.run_bind, hx.run_eq]
  cases x.outcome g with
  | error e => rfl
  | ok a => exact (hf a).run_eq g

theorem run_under (x : Evaluation α) (parameters : List Parameter) (arguments : List Object)
    (g : Assignment) : (under parameters arguments x).run g =
      match x.run (g.bindAll parameters arguments) with
      | .ok a g' => .ok a (g'.truncate g.size)
      | .error e g' => .error e (g'.truncate g.size) := rfl

@[simp] theorem outcome_under (x : Evaluation α) (parameters : List Parameter)
    (arguments : List Object) (g : Assignment) :
    (under parameters arguments x).outcome g = x.outcome (g.bindAll parameters arguments) := by
  rw [outcome, outcome, run_under]
  cases x.run (g.bindAll parameters arguments) <;> rfl

theorem Restores.under {x : Evaluation α} (hx : Restores x) (parameters : List Parameter)
    (arguments : List Object) : Restores (Evaluation.under parameters arguments x) := by
  refine eq_of_run fun g => ?_
  rw [run_reading, outcome_under, run_under, hx.run_eq]
  cases x.outcome (g.bindAll parameters arguments) <;> simp [Assignment.truncate_bindAll]

theorem restores_mapM {as : List α} {f : α → Evaluation β} (hf : ∀ a, Restores (f a)) :
    Restores (as.mapM f) := by
  induction as with
  | nil => exact restores_pure []
  | cons a as ih =>
    rw [List.mapM_cons]
    exact (hf a).bind fun b => ih.bind fun bs => restores_pure (b :: bs)

theorem outcome_mapM {as : List α} {f : α → Evaluation β} (hf : ∀ a, Restores (f a))
    (g : Assignment) : (as.mapM f).outcome g = as.mapM fun a => (f a).outcome g := by
  induction as with
  | nil => rfl
  | cons a as ih =>
    rw [List.mapM_cons, List.mapM_cons, outcome_bind (hf a)]
    congr 1
    funext b
    rw [outcome_bind (restores_mapM hf), ih]
    rfl

theorem restores_allM {as : List α} {p : α → Evaluation Bool} (hp : ∀ a ∈ as, Restores (p a)) :
    Restores (as.allM p) := by
  induction as with
  | nil => exact restores_pure true
  | cons a as ih =>
    rw [List.allM_cons]
    refine (hp a List.mem_cons_self).bind fun b => ?_
    cases b with
    | false => exact restores_pure false
    | true => exact ih fun a ha => hp a (List.mem_cons_of_mem _ ha)

theorem outcome_allM {as : List α} {p : α → Evaluation Bool} (hp : ∀ a, Restores (p a))
    (g : Assignment) : (as.allM p).outcome g = as.allM fun a => (p a).outcome g := by
  induction as with
  | nil => rfl
  | cons a as ih =>
    rw [List.allM_cons, List.allM_cons, outcome_bind (hp a)]
    congr 1
    funext b
    cases b with
    | false => rfl
    | true => exact ih

theorem restores_anyM {as : List α} {p : α → Evaluation Bool} (hp : ∀ a ∈ as, Restores (p a)) :
    Restores (as.anyM p) := by
  induction as with
  | nil => exact restores_pure false
  | cons a as ih =>
    rw [List.anyM_cons]
    refine (hp a List.mem_cons_self).bind fun b => ?_
    cases b with
    | false => exact ih fun a ha => hp a (List.mem_cons_of_mem _ ha)
    | true => exact restores_pure true

theorem outcome_anyM {as : List α} {p : α → Evaluation Bool} (hp : ∀ a, Restores (p a))
    (g : Assignment) : (as.anyM p).outcome g = as.anyM fun a => (p a).outcome g := by
  induction as with
  | nil => rfl
  | cons a as ih =>
    rw [List.anyM_cons, List.anyM_cons, outcome_bind (hp a)]
    congr 1
    funext b
    cases b with
    | false => exact ih
    | true => rfl

theorem restores_foldlM {as : List α} {f : β → α → Evaluation β}
    (hf : ∀ b, ∀ a ∈ as, Restores (f b a)) (b : β) : Restores (as.foldlM f b) := by
  induction as generalizing b with
  | nil => exact restores_pure b
  | cons a as ih =>
    rw [List.foldlM_cons]
    exact (hf b a List.mem_cons_self).bind
      (ih fun b a ha => hf b a (List.mem_cons_of_mem _ ha))

theorem outcome_foldlM {as : List α} {f : β → α → Evaluation β} (hf : ∀ b a, Restores (f b a))
    (b : β) (g : Assignment) :
    (as.foldlM f b).outcome g = as.foldlM (fun b a => (f b a).outcome g) b := by
  induction as generalizing b with
  | nil => rfl
  | cons a as ih =>
    rw [List.foldlM_cons, List.foldlM_cons, outcome_bind (hf b a)]
    congr 1
    funext b
    exact ih b

end Evaluation
end TypedPlanning
