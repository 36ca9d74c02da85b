/-! Named types with at most one declared super type each. The root type stands above every type,
declared or not. A super type is recorded only if no cycle arises, so walking up always ends. -/

namespace TypedPlanning

def rootType : String := "object"

inductive InheritanceFault where
  | alreadyHasSuperType (superType : String)
  | circular
deriving DecidableEq, Repr

structure TypeHierarchy where
  /-- Declared types in order of first declaration. -/
  types : List String
  /-- Pairs of a type and its super type. -/
  superTypes : List (String × String)
deriving DecidableEq, Repr

namespace TypeHierarchy

def initial : TypeHierarchy := ⟨[rootType], []⟩

def declare (h : TypeHierarchy) (t : String) : TypeHierarchy :=
  if t ∈ h.types then h else { h with types := h.types ++ [t] }

def get? (h : TypeHierarchy) (t : String) : Option String := if t ∈ h.types then some t else none

def parent? (h : TypeHierarchy) (t : String) : Option String := h.superTypes.lookup t

/-- At most `n` steps up from a type, the type itself first. -/
def chain (h : TypeHierarchy) : Nat → String → List String
  | 0, t => [t]
  | n + 1, t =>
    match h.parent? t with
    | none => [t]
    | some p => t :: h.chain n p

/-- A type, its super types from the nearest to the farthest, and last the root. Without a cycle
each recorded pair is followed at most once, so their number is enough steps. -/
def ancestors (h : TypeHierarchy) (t : String) : List String :=
  let up := h.chain h.superTypes.length t
  if rootType ∈ up then up else up ++ [rootType]

/-- The second type is a proper super type of the first. -/
def isBelow (h : TypeHierarchy) (sub sup : String) : Bool :=
  (h.ancestors sub).tail.contains sup

def isSubtype (h : TypeHierarchy) (sub sup : String) : Bool :=
  sub == sup || h.isBelow sub sup

/-- Records a super type. Repeating a recorded one is allowed, and changes nothing. -/
def inherit (h : TypeHierarchy) (sub sup : String) : Except InheritanceFault TypeHierarchy :=
  match h.parent? sub with
  | some p => if p = sup then .ok h else .error (.alreadyHasSuperType p)
  | none =>
    if sub == sup || h.isBelow sup sub then .error .circular
    else .ok { h with superTypes := (sub, sup) :: h.superTypes }

@[simp] theorem types_inherit {h h' : TypeHierarchy} {sub sup : String}
    (ok : h.inherit sub sup = .ok h') : h'.types = h.types := by
  unfold inherit at ok
  split at ok <;> split at ok <;> simp_all
  · subst ok; rfl

theorem mem_types_declare {h : TypeHierarchy} {t u : String} :
    u ∈ (h.declare t).types ↔ u = t ∨ u ∈ h.types := by
  unfold declare
  split
  · constructor
    · exact .inr
    · rintro (rfl | hu) <;> assumption
  · simp [or_comm]

end TypeHierarchy
end TypedPlanning
