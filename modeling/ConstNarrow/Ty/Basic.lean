/-
**Types.**

A type is a primitive, a structure (array, tuple, record, map), one of the broad types, a union,
a finite set of values, a name for another type, or the error type, which stands for whatever has
gone wrong already. The fields of a record are held in the strict order of their names: the bound
in `Fields` makes every field's name lie above the one before, so a record has each name once and
two records with the same fields are the same type.

Types are the same when they are built alike from the same singletons. That is weaker than
equality: numbers that are written differently may be the same value.
-/
import ConstNarrow.Singleton

set_option autoImplicit false

namespace ConstNarrow

/-- How many members an array has. -/
inductive ArraySize where
  /-- exactly so many -/
  | closed (length : Nat)
  /-- any number -/
  | unbounded
  /-- as many as its initial value has -/
  | inferred
deriving DecidableEq, Repr

/-- Whether a name lies above a bound, if there is one. -/
def Above : Option String → String → Prop
  | none, _ => True
  | some bound, name => bound < name

instance : (bound : Option String) → (name : String) → Decidable (Above bound name)
  | none, _ => isTrue trivial
  | some bound, name => inferInstanceAs (Decidable (bound < name))

mutual

/-- The types of values. -/
inductive Ty where
  | primitive (p : Primitive)
  | array (elem : Ty) (size : ArraySize)
  /-- members by position, and the type of any further ones -/
  | tuple (members : List Ty) (rest : Option Ty)
  /-- A sealed record has no fields but its own. An open one may have others: of the type `rest`,
  or of any type if there is no `rest`. -/
  | record (fields : Fields none) (rest : Option Ty) (isSealed : Bool)
  | map (constraint : Ty)
  | table
  | anydata
  | json
  | union (members : List Ty)
  | finite (values : List Singleton)
  /-- a named type -/
  | reference (name : String) (referred : Ty)
  /-- the immutable values of a type -/
  | intersection (effective : Ty)
  /-- what has been reported already -/
  | error

/-- Named fields in ascending order of their names, all above a bound. -/
inductive Fields : Option String → Type where
  | nil {bound : Option String} : Fields bound
  | cons {bound : Option String} (name : String) (above : Above bound name) (ty : Ty)
      (required : Bool) (tail : Fields (some name)) : Fields bound

end

/-- The type of a field, and whether the field has to be there. -/
structure Field where
  ty : Ty
  required : Bool

/-! ## Fields -/

namespace Fields

/-- The fields as a list of names and types, in ascending order. -/
def toList {bound : Option String} : Fields bound → List (String × Field)
  | .nil => []
  | .cons name _ ty required tail => (name, ⟨ty, required⟩) :: tail.toList

/-- The names in ascending order. -/
def names {bound : Option String} (fields : Fields bound) : List String := fields.toList.map Prod.fst

/-- The field of a name. -/
def get? {bound : Option String} : Fields bound → String → Option Field
  | .nil, _ => none
  | .cons name _ ty required tail, key =>
    if key = name then some ⟨ty, required⟩ else tail.get? key

/-- Whether there is a field of a name. -/
def contains {bound : Option String} (fields : Fields bound) (key : String) : Bool :=
  (fields.get? key).isSome

/-- What is above a name is above every bound of it. -/
theorem above_trans {bound : Option String} {a b : String} (h : Above bound a) (h' : a < b) :
    Above bound b := by
  cases bound with
  | none => trivial
  | some c => exact String.lt_trans h h'

/-- Puts a field under a name, in place of the one that may be there. -/
def insertAbove {bound : Option String} :
    Fields bound → (key : String) → Above bound key → Field → Fields bound
  | .nil, key, h, field => .cons key h field.ty field.required .nil
  | .cons name above ty required tail, key, h, field =>
    if hlt : key < name then .cons key h field.ty field.required (.cons name hlt ty required tail)
    else if heq : key = name then .cons name above field.ty field.required tail
    else
      have hgt : name < key := by
        rcases Std.lt_trichotomy key name with h₁ | h₁ | h₁
        · exact absurd h₁ hlt
        · exact absurd h₁ heq
        · exact h₁
      .cons name above ty required (tail.insertAbove key hgt field)

/-- Puts a field under a name, in place of the one that may be there. -/
def insert (fields : Fields none) (key : String) (field : Field) : Fields none :=
  fields.insertAbove key trivial field

/-- The fields of a list; of two with one name the later counts. -/
def ofList (entries : List (String × Field)) : Fields none :=
  entries.foldl (fun fields (key, field) => fields.insert key field) .nil

@[simp] theorem get?_nil {bound : Option String} (key : String) :
    (Fields.nil : Fields bound).get? key = none := rfl

theorem get?_insertAbove {bound : Option String} :
    (fields : Fields bound) → (key : String) → (h : Above bound key) → (field : Field) →
    (other : String) → (fields.insertAbove key h field).get? other =
      if other = key then some field else fields.get? other
  | .nil, key, h, field, other => by
    simp [insertAbove, get?]
  | .cons name above ty required tail, key, h, field, other => by
    rw [insertAbove]
    split
    · simp [get?]
    · split
      · rename_i heq
        subst heq
        by_cases ho : other = key <;> simp [get?, ho]
      · rename_i hne
        by_cases ho : other = name
        · simp [get?, ho, Ne.symm hne]
        · simpa [get?, ho] using get?_insertAbove tail key _ field other

/-- An insertion changes what is found under its own name, and nothing else. -/
theorem get?_insert (fields : Fields none) (key : String) (field : Field) (other : String) :
    (fields.insert key field).get? other = if other = key then some field else fields.get? other :=
  get?_insertAbove fields key trivial field other

theorem above_of_mem_names {bound : Option String} :
    (fields : Fields bound) → {name : String} → name ∈ fields.names → Above bound name
  | .nil, _, h => by simp [names, toList] at h
  | .cons _ above _ _ tail, _, h => by
    simp only [names, toList, List.map_cons, List.mem_cons] at h
    rcases h with h | h
    · exact h ▸ above
    · exact above_trans above (above_of_mem_names tail h)

/-- The names ascend strictly, so none occurs twice. -/
theorem pairwise_names {bound : Option String} :
    (fields : Fields bound) → fields.names.Pairwise (· < ·)
  | .nil => by simp [names, toList]
  | .cons _ _ _ _ tail => by
    simp only [names, toList, List.map_cons, List.pairwise_cons]
    exact ⟨fun _ h => above_of_mem_names tail h, pairwise_names tail⟩

end Fields

/-! ## Types -/

namespace Ty

/-- The type of one value. -/
def singleton (s : Singleton) : Ty := .finite [s]

/-- The type that decides about structure and values: names and immutability looked through. -/
def effective : Ty → Ty
  | .reference _ referred => referred.effective
  | .intersection inner => inner.effective
  | ty => ty

@[simp] theorem effective_effective : (ty : Ty) → ty.effective.effective = ty.effective
  | .reference _ referred => effective_effective referred
  | .intersection inner => effective_effective inner
  | .primitive _ | .array _ _ | .tuple _ _ | .record _ _ _ | .map _ | .table | .anydata | .json
  | .union _ | .finite _ | .error => rfl

/-- Whether this is the error type itself. -/
def isError : Ty → Bool
  | .error => true
  | _ => false

/-- The one value of a type that is written as one value. -/
def singleton? : Ty → Option Singleton
  | .finite [s] => some s
  | _ => none

/-- The members of a union; no other type has any. -/
def members : Ty → List Ty
  | .union members => members
  | _ => []

/-- The members of a union, or the type alone. -/
def unionMembers : Ty → List Ty
  | .union members => members
  | ty => [ty]

/-- A sealed record all of whose fields are required, as a record constructor makes it. -/
def sealedRecord (fields : Fields none) : Ty := .record fields none true

mutual

/-- Whether `()` is one of the values. -/
def containsNil : Ty → Bool
  | .primitive p => p == .nil
  | .anydata => true
  | .json => true
  | .finite values => values.any (·.base == .nil)
  | .union members => containsNilAny members
  | .reference _ referred => referred.containsNil
  | .intersection inner => inner.containsNil
  | _ => false
termination_by structural ty => ty

/-- Whether `()` is a value of one of the types. -/
def containsNilAny : List Ty → Bool
  | [] => false
  | ty :: tys => ty.containsNil || containsNilAny tys
termination_by structural tys => tys

end

/-- The type of a position in a tuple: past the members it is that of the rest. -/
def position? (members : List Ty) (rest : Option Ty) (i : Nat) : Option Ty := members[i]?.or rest

/-- Whether a record may have fields other than its own. -/
def allowsExtra (rest : Option Ty) (isSealed : Bool) : Bool := !isSealed || rest.isSome

/-! ### Sameness -/

mutual

/-- Whether two types are built alike from the same singletons. -/
def same : Ty → Ty → Bool
  | .primitive p, .primitive q => p == q
  | .array e m, .array f n => e.same f && m == n
  | .tuple ms r, .tuple ns s => sameList ms ns && sameOption r s
  | .record fs r c, .record gs s d => sameFields fs gs && sameOption r s && c == d
  | .map c, .map d => c.same d
  | .table, .table => true
  | .anydata, .anydata => true
  | .json, .json => true
  | .union ms, .union ns => sameList ms ns
  | .finite vs, .finite ws => vs == ws
  | .reference n t, .reference m u => n == m && t.same u
  | .intersection t, .intersection u => t.same u
  | .error, .error => true
  | _, _ => false
termination_by structural ty => ty

/-- Whether two lists hold the same types in the same order. -/
def sameList : List Ty → List Ty → Bool
  | [], [] => true
  | t :: ts, u :: us => t.same u && sameList ts us
  | _, _ => false
termination_by structural tys => tys

/-- Whether two types that may be missing are the same. -/
def sameOption : Option Ty → Option Ty → Bool
  | none, none => true
  | some t, some u => t.same u
  | _, _ => false
termination_by structural ty => ty

/-- Whether two rows of fields have the same names with the same types. -/
def sameFields : {b c : Option String} → Fields b → Fields c → Bool
  | _, _, .nil, .nil => true
  | _, _, .cons n _ t r fs, .cons m _ u s gs => n == m && r == s && t.same u && sameFields fs gs
  | _, _, _, _ => false
termination_by structural _ _ fields => fields

end

instance : BEq Ty := ⟨same⟩

/-! ### Unions -/

/-- Adds a type to a list, unless the same one is there. -/
def addNew (tys : List Ty) (ty : Ty) : List Ty := if tys.contains ty then tys else tys ++ [ty]

/-- The types of a list with each union replaced by its members, each type once, in order of first
appearance. -/
def flatten (tys : List Ty) : List Ty := (tys.flatMap unionMembers).foldl addNew []

/-- The union of types. Of one type it is that type, and of none the error type. -/
def unionOf (tys : List Ty) : Ty :=
  match flatten tys with
  | [] => .error
  | [ty] => ty
  | tys => .union tys

end Ty

end ConstNarrow
