import TypedPlanning.Proofs.Ancestors
import Mathlib.Order.Preorder.Chain

/-! The types of a hierarchy form a tree with the root on top, whatever was asked of the hierarchy
and however often it refused. So the walk up from any type ends, and the subtype test is an
order. -/

namespace TypedPlanning
namespace TypeHierarchy
open Relation

variable {h : TypeHierarchy} {a b c t u : String} {path path' : List String}

inductive Request where
  | declare (type : String)
  | inherit (sub sup : String)
deriving DecidableEq, Repr

/-- Why the request is refused, if it is, and the hierarchy afterwards. -/
def perform (h : TypeHierarchy) : Request → Option InheritanceFault × TypeHierarchy
  | .declare t => (none, h.declare t)
  | .inherit sub sup =>
    match h.inherit sub sup with
    | .ok h' => (none, h')
    | .error fault => (some fault, h)

def after (requests : List Request) : TypeHierarchy :=
  requests.foldl (fun h request => (h.perform request).2) .initial

theorem Made.perform (made : h.Made) (request : Request) : (h.perform request).2.Made := by
  cases request with
  | declare t => exact made.declare t
  | inherit sub sup =>
    simp only [TypeHierarchy.perform]
    cases recorded : h.inherit sub sup with
    | ok h' => exact made.inherit recorded
    | error fault => exact made

theorem made_after (requests : List Request) : (after requests).Made := by
  suffices run : ∀ h : TypeHierarchy, h.Made →
      (requests.foldl (fun h request => (h.perform request).2) h).Made from run _ .initial
  induction requests with
  | nil => exact fun _ made => made
  | cons request requests ih => exact fun _ made => ih _ (made.perform request)

theorem perform_of_refused {request : Request} {fault : InheritanceFault}
    (refused : (h.perform request).1 = some fault) : (h.perform request).2 = h := by
  cases request with
  | declare t => cases refused
  | inherit sub sup =>
    simp only [perform] at refused ⊢
    cases recorded : h.inherit sub sup with
    | ok h' =>
      rw [recorded] at refused
      cases refused
    | error fault' => rfl

/-- A super type is refused as circular if the type has none yet and is met on the way up from
that super type. -/
theorem perform_circular_iff {sub sup : String} :
    (h.perform (.inherit sub sup)).1 = some .circular ↔
      h.parent? sub = none ∧ (sub = sup ∨ sub ∈ h.ancestors sup) := by
  have above : (sub == sup || h.isBelow sup sub) = true ↔ sub = sup ∨ sub ∈ h.ancestors sup := by
    have first := h.ancestors_eq_cons sup
    simp only [isBelow, Bool.or_eq_true, beq_iff_eq, List.contains_iff_mem]
    generalize (h.ancestors sup).tail = rest at first
    rw [first, List.mem_cons]
    exact ⟨fun above => above.imp_right .inr, fun above => above.elim .inl id⟩
  rw [← above, perform, inherit]
  cases h.parent? sub with
  | some p => by_cases same : p = sup <;> simp [same]
  | none => by_cases circular : (sub == sup || h.isBelow sup sub) = true <;> simp [circular]

/-- The walk up from a type, from super type to super type for as long as there is one. -/
inductive Climbs (h : TypeHierarchy) : String → List String → Prop
  | top {t : String} : h.parent? t = none → Climbs h t [t]
  | step {t p : String} {path : List String} : h.Up t p → Climbs h p path → Climbs h t (t :: path)

theorem Climbs.unique (climbs : h.Climbs t path) (climbs' : h.Climbs t path') : path' = path := by
  induction climbs generalizing path' with
  | top none =>
    cases climbs' with
    | top => rfl
    | step up => cases none.symm.trans up
  | step up _ ih =>
    cases climbs' with
    | top none => cases none.symm.trans up
    | step up' rest =>
      obtain rfl := Option.some.inj (up.symm.trans up')
      rw [ih rest]

theorem Climbs.getLast?_eq (climbs : h.Climbs t path) (met : u ∈ path) (top : h.parent? u = none) :
    path.getLast? = some u := by
  induction climbs with
  | top =>
    obtain rfl := List.mem_singleton.mp met
    rfl
  | @step t p path up _ ih =>
    obtain rfl | met := List.mem_cons.mp met
    · cases top.symm.trans up
    · rw [List.getLast?_cons, ih met, Option.getD_some]

/-- As long as a walk has not ended, all types that it has met have a super type. -/
theorem climbs_chain_or (h : TypeHierarchy) (n : Nat) (t : String) : h.Climbs t (h.chain n t) ∨
    (h.chain n t).length = n + 1 ∧ h.chain n t ⊆ h.superTypes.map Prod.fst := by
  induction n generalizing t with
  | zero =>
    cases up : h.parent? t with
    | none => exact .inl (.top up)
    | some p =>
      have recorded := List.mem_map_of_mem (f := Prod.fst) (mem_superTypes_of_up up)
      exact .inr ⟨rfl, List.cons_subset.mpr ⟨recorded, List.nil_subset _⟩⟩
  | succ n ih =>
    cases up : h.parent? t with
    | none =>
      rw [chain, up]
      exact .inl (.top up)
    | some p =>
      rw [h.chain_succ up]
      obtain climbs | ⟨length, recorded⟩ := ih p
      · exact .inl (.step up climbs)
      · have first := List.mem_map_of_mem (f := Prod.fst) (mem_superTypes_of_up up)
        exact .inr ⟨by rw [List.length_cons, length], List.cons_subset.mpr ⟨first, recorded⟩⟩

/-- Without a cycle no walk meets more types than are recorded, so it ends in time. -/
theorem Acyclic.climbs_chain (acyclic : h.Acyclic) (t : String) :
    h.Climbs t (h.chain h.superTypes.length t) := by
  obtain climbs | ⟨length, recorded⟩ := h.climbs_chain_or h.superTypes.length t
  · exact climbs
  · have fits := (acyclic.nodup_chain _ t).length_le_of_subset recorded
    rw [length, List.length_map] at fits
    omega

theorem isSubtype_rootType (h : TypeHierarchy) (t : String) : h.isSubtype t rootType = true :=
  isSubtype_iff_reflTransGen.mpr (.inr rfl)

theorem Made.parent?_rootType (made : h.Made) : h.parent? rootType = none := by
  induction made with
  | initial => rfl
  | declare t _ ih =>
    refine Option.eq_none_iff_forall_ne_some.mpr fun p up => ?_
    cases ih.symm.trans ((Definition.up_declare _ t).mp up)
  | @inherit h h' sub sup _ recorded ih =>
    refine Option.eq_none_iff_forall_ne_some.mpr fun p up => ?_
    obtain up | ⟨rfl, rfl⟩ := (Definition.up_inherit recorded).mp up
    · cases ih.symm.trans up
    · -- the root is above every type, so a super type of it is refused
      obtain ⟨up, -⟩ | ⟨-, apart, -⟩ := Definition.inherit_eq_ok.mp recorded
      · cases ih.symm.trans up
      · cases (h.isSubtype_rootType p).symm.trans apart

theorem Made.getLast?_ancestors (made : h.Made) (t : String) :
    (h.ancestors t).getLast? = some rootType := by
  rw [ancestors]
  split
  · next met => exact (made.acyclic.climbs_chain t).getLast?_eq met made.parent?_rootType
  · exact List.getLast?_concat

theorem Made.eq_rootType (made : h.Made) (path : ReflTransGen h.Up rootType a) : a = rootType := by
  obtain rfl | ⟨p, up, -⟩ := path.cases_head
  · rfl
  · cases made.parent?_rootType.symm.trans up

theorem Made.isSubtype_trans (made : h.Made) (lower : h.isSubtype a b = true)
    (upper : h.isSubtype b c = true) : h.isSubtype a c = true := by
  rw [isSubtype_iff_reflTransGen] at *
  obtain path | rfl := upper
  · obtain below | rfl := lower
    · exact .inl (below.trans path)
    · exact .inr (made.eq_rootType path)
  · exact .inr rfl

theorem Made.isSubtype_antisymm (made : h.Made) (lower : h.isSubtype a b = true)
    (upper : h.isSubtype b a = true) : a = b := by
  rw [isSubtype_iff_reflTransGen] at *
  obtain up | rfl := lower
  · obtain down | rfl := upper
    · obtain rfl | up := reflTransGen_iff_eq_or_transGen.mp up
      · rfl
      · exact absurd (up.trans_left down) (made.acyclic a)
    · exact (made.eq_rootType up).symm
  · obtain down | rfl := upper
    · exact made.eq_rootType down
    · rfl

theorem isSubtype_total_of_isSubtype (above : h.isSubtype t a = true)
    (above' : h.isSubtype t b = true) : h.isSubtype a b = true ∨ h.isSubtype b a = true := by
  simp only [isSubtype_iff_reflTransGen] at *
  obtain path | rfl := above
  · obtain path' | rfl := above'
    · have unique : Relator.RightUnique h.Up := fun _ _ _ up up' =>
        Option.some.inj (up.symm.trans up')
      exact (ReflTransGen.total_of_right_unique unique path path').imp .inl .inl
    · exact .inl (.inr rfl)
  · exact .inr (.inr rfl)

theorem Made.isBelow_iff (made : h.Made) :
    h.isBelow a b = true ↔ h.isSubtype a b = true ∧ a ≠ b := by
  have first := h.ancestors_eq_cons a
  have nodup := made.nodup_ancestors a
  rw [isSubtype_iff, isBelow, List.contains_iff_mem]
  generalize (h.ancestors a).tail = rest at first
  rw [first] at nodup ⊢
  obtain ⟨new, -⟩ := List.nodup_cons.mp nodup
  rw [List.mem_cons]
  constructor
  · exact fun there => ⟨.inr there, fun same => new (same ▸ there)⟩
  · rintro ⟨rfl | there, ne⟩
    · exact absurd rfl ne
    · exact there

/-- The types form a tree with the root on top. -/
structure IsTree (h : TypeHierarchy) : Prop where
  root : h.parent? rootType = none
  acyclic : h.Acyclic
  /-- The walk up from any type ends, and the ancestors are what it meets and the root. -/
  climbs : ∀ t, ∃ path, (∀ path', h.Climbs t path' ↔ path' = path) ∧
    h.ancestors t = if rootType ∈ path then path else path ++ [rootType]
  nodup : ∀ t, (h.ancestors t).Nodup
  head : ∀ t, (h.ancestors t).head? = some t
  last : ∀ t, (h.ancestors t).getLast? = some rootType
  strict : IsStrictOrder String fun a b => h.isBelow a b = true
  order : IsPartialOrder String fun a b => h.isSubtype a b = true
  chain : ∀ t, IsChain (fun a b => h.isSubtype a b = true) {a | h.isSubtype t a = true}

theorem Made.isTree (made : h.Made) : h.IsTree where
  root := made.parent?_rootType
  acyclic := made.acyclic
  climbs t := by
    have climbs := made.acyclic.climbs_chain t
    exact ⟨_, fun path' => ⟨climbs.unique, fun same => same ▸ climbs⟩, rfl⟩
  nodup := made.nodup_ancestors
  head t := by
    rw [ancestors_eq_cons]
    rfl
  last := made.getLast?_ancestors
  strict :=
    { irrefl := fun a below => (made.isBelow_iff.mp below).2 rfl
      trans := fun a b c lower upper => by
        obtain ⟨lower, ne⟩ := made.isBelow_iff.mp lower
        obtain ⟨upper, -⟩ := made.isBelow_iff.mp upper
        refine made.isBelow_iff.mpr ⟨made.isSubtype_trans lower upper, ?_⟩
        rintro rfl
        exact ne (made.isSubtype_antisymm lower upper) }
  order :=
    { refl := fun a => isSubtype_iff_reflTransGen.mpr (.inl .refl)
      trans := fun _ _ _ => made.isSubtype_trans
      antisymm := fun _ _ => made.isSubtype_antisymm }
  chain _ _ above _ above' _ := isSubtype_total_of_isSubtype above above'

/-- Whatever was asked of a hierarchy, its types form a tree. What it refuses leaves it as it was,
and it refuses a super type as circular exactly if the type has none yet, and is that super type or
lies above it. -/
theorem after_isTree (requests : List Request) : (after requests).IsTree ∧
    (∀ request fault, ((after requests).perform request).1 = some fault →
      ((after requests).perform request).2 = after requests) ∧
    ∀ sub sup, ((after requests).perform (.inherit sub sup)).1 = some .circular ↔
      (after requests).parent? sub = none ∧ (sub = sup ∨ sub ∈ (after requests).ancestors sup) :=
  ⟨(made_after requests).isTree, fun _ _ => perform_of_refused, fun _ _ => perform_circular_iff⟩

/-- The third and the fourth request are refused. -/
def fleet : List Request :=
  [.declare "truck", .inherit "truck" "vehicle", .inherit "vehicle" "truck",
    .inherit "object" "truck", .inherit "vehicle" "thing"]

theorem after_isTree_fleet : (after fleet).IsTree ∧
    (after fleet).ancestors "truck" = ["truck", "vehicle", "thing", "object"] ∧
    (after fleet).perform (.inherit "thing" "truck") = (some .circular, after fleet) := by
  obtain ⟨tree, unchanged, circular⟩ := after_isTree fleet
  have refused : ((after fleet).perform (.inherit "thing" "truck")).1 = some .circular :=
    (circular _ _).mpr ⟨by decide, .inr (by decide)⟩
  exact ⟨tree, by decide, Prod.ext refused (unchanged _ _ refused)⟩

end TypeHierarchy
end TypedPlanning
