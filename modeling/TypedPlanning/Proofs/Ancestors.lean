import TypedPlanning.Proofs.Hierarchy
import Mathlib.Data.List.Nodup

/-! Hierarchies that come of declaring types and recording super types have no cycle, since a super
type is recorded only where no recorded steps lead back. So the walk up from a type meets no type
twice. -/

namespace TypedPlanning
namespace TypeHierarchy
open Relation

variable {h h' : TypeHierarchy} {a b sub sup : String}

/-- The hierarchies that come of declaring types and recording super types. -/
inductive Made : TypeHierarchy → Prop where
  | initial : Made .initial
  | declare {h : TypeHierarchy} (t : String) : Made h → Made (h.declare t)
  | inherit {h h' : TypeHierarchy} {sub sup : String} : Made h → h.inherit sub sup = .ok h' →
    Made h'

def Acyclic (h : TypeHierarchy) : Prop := ∀ t, ¬ TransGen h.Up t t

/-- With one step more, a path either does without it or goes up to it and on from it. -/
theorem reflTransGen_of_step (more : ∀ x y, h'.Up x y → h.Up x y ∨ x = sub ∧ y = sup)
    (path : ReflTransGen h'.Up a b) :
    ReflTransGen h.Up a b ∨ ReflTransGen h.Up a sub ∧ ReflTransGen h.Up sup b := by
  induction path with
  | refl => exact .inl .refl
  | @tail c d _ up ih =>
    obtain up | ⟨rfl, rfl⟩ := more c d up
    · obtain path | ⟨first, second⟩ := ih
      · exact .inl (path.tail up)
      · exact .inr ⟨first, second.tail up⟩
    · obtain path | ⟨first, -⟩ := ih
      · exact .inr ⟨path, .refl⟩
      · exact .inr ⟨first, .refl⟩

/-- A step makes no cycle if there was none and no path leads back from its end. -/
theorem Acyclic.of_step (acyclic : h.Acyclic) (apart : ¬ ReflTransGen h.Up sup sub)
    (more : ∀ x y, h'.Up x y → h.Up x y ∨ x = sub ∧ y = sup) : h'.Acyclic := by
  intro t cycle
  obtain ⟨c, up, path⟩ := TransGen.head'_iff.mp cycle
  obtain up | ⟨rfl, rfl⟩ := more t c up
  · obtain path | ⟨first, second⟩ := reflTransGen_of_step more path
    · exact acyclic t (.head' up path)
    · exact apart (second.trans (.head up first))
  · obtain path | ⟨first, -⟩ := reflTransGen_of_step more path
    · exact apart path
    · exact apart first

theorem Acyclic.inherit (acyclic : h.Acyclic) (recorded : h.inherit sub sup = .ok h') :
    h'.Acyclic := by
  have more (x y : String) : h'.Up x y → h.Up x y ∨ x = sub ∧ y = sup :=
    (Definition.up_inherit recorded).mp
  obtain ⟨-, rfl⟩ | ⟨-, apart, -⟩ := Definition.inherit_eq_ok.mp recorded
  · exact acyclic
  · refine acyclic.of_step (fun path => ?_) more
    rw [isSubtype_iff_reflTransGen.mpr (.inl path)] at apart
    cases apart

theorem Made.acyclic (made : h.Made) : h.Acyclic := by
  induction made with
  | initial =>
    intro t cycle
    obtain ⟨c, up, -⟩ := TransGen.head'_iff.mp cycle
    cases up
  | @declare h t _ ih =>
    have same : (h.declare t).Up = h.Up := by
      funext x y
      exact propext (Definition.up_declare h t)
    rwa [Acyclic, same]
  | inherit _ recorded ih => exact ih.inherit recorded

theorem Acyclic.nodup_chain (acyclic : h.Acyclic) (n : Nat) (t : String) : (h.chain n t).Nodup := by
  induction n generalizing t with
  | zero => exact List.nodup_singleton t
  | succ n ih =>
    cases up : h.parent? t with
    | none =>
      rw [chain, up]
      exact List.nodup_singleton t
    | some p =>
      rw [h.chain_succ up, List.nodup_cons]
      exact ⟨fun again => acyclic t (.head' up (reflTransGen_of_mem_chain again)), ih p⟩

theorem Made.nodup_ancestors (made : h.Made) (t : String) : (h.ancestors t).Nodup := by
  have nodup := made.acyclic.nodup_chain h.superTypes.length t
  rw [ancestors]
  split
  · exact nodup
  · next below =>
    refine List.nodup_append.mpr ⟨nodup, List.nodup_singleton _, fun x hx y hy => ?_⟩
    obtain rfl := List.mem_singleton.mp hy
    exact ne_of_mem_of_not_mem hx below

theorem Made.nodup_types (made : h.Made) : h.types.Nodup := by
  induction made with
  | initial => exact List.nodup_singleton _
  | @declare h t _ ih =>
    rw [TypeHierarchy.declare]
    split
    · exact ih
    · next new =>
      refine List.nodup_append.mpr ⟨ih, List.nodup_singleton t, fun x hx y hy => ?_⟩
      obtain rfl := List.mem_singleton.mp hy
      exact ne_of_mem_of_not_mem hx new
  | inherit _ recorded ih => rwa [types_inherit recorded]

end TypeHierarchy

namespace Definition
open Fallible

theorem made_declareType {h h' : TypeHierarchy} {d : TypedName} (made : h.Made)
    (declared : declareType h d = .ok h') : h'.Made := by
  have named : ((h.declare d.name).declare d.type).Made := (made.declare d.name).declare d.type
  obtain ⟨-, rfl⟩ | ⟨-, recorded⟩ := declareType_eq_ok.mp declared
  · exact named
  · exact named.inherit recorded

theorem made_typeHierarchy {ds : List TypedName} {h : TypeHierarchy}
    (declared : typeHierarchy ds = .ok h) : h.Made :=
  foldlM_invariant (fun _ _ _ _ => made_declareType) .initial declared

end Definition
end TypedPlanning
