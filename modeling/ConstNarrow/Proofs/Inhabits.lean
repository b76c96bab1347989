/-
**Concrete types that belong to a type.**

`Inhabits` says of a concrete type that it is assignable to another one. With the laws of
assignability there is one rule for each form of target. The first use of them is that the default of
a type inhabits it.
-/
import ConstNarrow.Proofs.Assignability

set_option autoImplicit false

namespace ConstNarrow.Ty

/-! ## Inhabitants -/

/-- A concrete type that is assignable to another one. A value also belongs to that type. -/
structure Inhabits (ty expected : Ty) : Prop where
  concrete : ty.isConcrete Singleton.isProper = true
  accepted : expected.accepts ty = true
  admitted : ∀ s, ty = .finite [s] → expected.admits s = true

namespace Inhabits

variable {ty expected : Ty}

/-- That a value belongs to the type follows from its being assignable. -/
theorem of_accepts (hconcrete : ty.isConcrete Singleton.isProper = true)
    (haccepts : expected.accepts ty = true) : Inhabits ty expected :=
  ⟨hconcrete, haccepts, fun s hs =>
    (accepts_finite_iff expected).mp (hs ▸ haccepts) s List.mem_cons_self⟩

protected theorem singleton {s : Singleton} (hs : s.isProper = true)
    (h : expected.admits s = true) : Inhabits (singleton s) expected :=
  .of_accepts hs (accepts_singleton expected h)

protected theorem reference {name : String} (h : Inhabits ty expected) :
    Inhabits ty (.reference name expected) :=
  ⟨h.concrete, h.accepted, h.admitted⟩

protected theorem intersection (h : Inhabits ty expected) : Inhabits ty (.intersection expected) :=
  ⟨h.concrete, h.accepted, h.admitted⟩

protected theorem anydata (h : ty.isConcrete Singleton.isProper = true) : Inhabits ty .anydata :=
  .of_accepts h (anydata_accepts ty)

protected theorem json (h : ty.isConcrete Singleton.isProper = true) : Inhabits ty .json :=
  .of_accepts h (json_accepts (isJson_of_isConcrete h))

/-- What inhabits a member of a union inhabits the union. -/
protected theorem union {members : List Ty} (hmem : expected ∈ members) (h : Inhabits ty expected) :
    Inhabits ty (.union members) :=
  .of_accepts h.concrete (joins ty members expected hmem h.accepted)

/-- A tuple of the right length inhabits an array if its members inhabit the element type. -/
protected theorem array {elem : Ty} {size : ArraySize} {members : List Ty}
    (h : ∀ member ∈ members, Inhabits member elem)
    (hsize : sizeAcceptsTuple size members none = true) :
    Inhabits (.tuple members none) (.array elem size) :=
  .of_accepts (isConcrete_tuple.mpr fun ty hty => (h ty hty).concrete)
    (array_accepts_tuple (fun ty hty => (h ty hty).accepted) hsize)

/-- A tuple inhabits another one if its members inhabit those of the other, and all further ones
the rest type. -/
protected theorem tuple {members firsts others : List Ty} {rest : Option Ty}
    (h : List.Forall₂ (fun member first => Inhabits first member) members firsts)
    (hothers : ∀ other ∈ others, ∃ ty ∈ rest, Inhabits other ty) :
    Inhabits (.tuple (firsts ++ others) none) (.tuple members rest) := by
  refine .of_accepts (isConcrete_tuple.mpr fun ty hty => ?_) ?_
  · rcases List.mem_append.mp hty with hty | hty
    · obtain ⟨_, _, hin⟩ := exists_of_mem_right h hty
      exact hin.concrete
    · obtain ⟨_, _, hin⟩ := hothers ty hty
      exact hin.concrete
  · refine tuple_accepts_tuple (h.imp fun _ _ hin => hin.accepted) fun other hother => ?_
    obtain ⟨ty, hty, hin⟩ := hothers other hother
    exact ⟨ty, hty, hin.accepted⟩

/-- Fields under the names of a record, followed by others, inhabit the record. -/
protected theorem record {fields : Fields none} {rest : Option Ty} {isSealed : Bool}
    {declared further : List (String × Ty)}
    (hdeclared : List.Forall₂
      (fun field entry => entry.1 = field.1 ∧ Inhabits entry.2 field.2.ty) fields.toList declared)
    (hnodup : (further.map Prod.fst).Nodup)
    (hfurther : ∀ entry ∈ further, fields.contains entry.1 = false
      ∧ ((rest = none ∧ isSealed = false ∧ Inhabits entry.2 .anydata)
        ∨ ∃ ty ∈ rest, Inhabits entry.2 ty)) :
    Inhabits (sealedOf (declared ++ further)) (.record fields rest isSealed) := by
  refine .of_accepts (isConcrete_sealedOf fun entry hentry => ?_)
    (record_accepts_append (hdeclared.imp fun _ _ h => ⟨h.1, h.2.accepted⟩) hnodup
      fun entry hentry => ⟨(hfurther entry hentry).1, ?_⟩)
  · rcases List.mem_append.mp hentry with hentry | hentry
    · obtain ⟨_, _, _, hin⟩ := exists_of_mem_right hdeclared hentry
      exact hin.concrete
    · rcases (hfurther entry hentry).2 with ⟨-, -, hin⟩ | ⟨_, -, hin⟩
      · exact hin.concrete
      · exact hin.concrete
  · rcases (hfurther entry hentry).2 with ⟨hrest, hopen, -⟩ | ⟨ty, hty, hin⟩
    · exact Or.inl ⟨hrest, hopen⟩
    · exact Or.inr ⟨ty, hty, hin.accepted⟩

/-- A sealed record inhabits a map if the types of its fields inhabit the constraint. -/
protected theorem map {constraint : Ty} {entries : List (String × Ty)}
    (h : ∀ entry ∈ entries, Inhabits entry.2 constraint) :
    Inhabits (sealedOf entries) (.map constraint) :=
  .of_accepts (isConcrete_sealedOf fun entry hentry => (h entry hentry).concrete)
    (map_accepts_sealedOf fun entry hentry => (h entry hentry).accepted)

end Inhabits

/-! ## Defaults -/

/-- Whether a type may stand in a declaration, apart from its parts: it is neither the error type
nor a table, and its values stand under their own primitives. -/
def isDeclarable : Ty → Bool
  | .error => false
  | .table => false
  | .finite values => values.all Singleton.isProper
  | _ => true

theorem everywhere_holdsProper {ty : Ty} (h : ty.everywhere isDeclarable = true) :
    ty.everywhere holdsProper = true := by
  refine everywhere_of_imp (fun ty hty _ => ?_) h h
  cases ty with
  | finite values => exact hty
  | _ => rfl

theorem isConcrete_default {ty d : Ty} (hty : ty.everywhere isDeclarable = true)
    (h : ty.default = .ok d) : d.isConcrete Singleton.isProper = true := by
  refine default_induction
    (motive := fun ty d => ty.everywhere isDeclarable = true →
      d.isConcrete Singleton.isProper = true)
    ?primitive ?array ?tuple ?record ?map ?table ?nil ?value ?union ?reference ?intersection ?error
    h hty
  case primitive => exact fun p _ => Singleton.isProper_default p
  case array =>
    intro elem size members ih _ hty
    exact isConcrete_tuple.mpr fun member hmem => ih member hmem (everywhere_array.mp hty).2
  case tuple =>
    intro members rest values ih hty
    refine isConcrete_tuple.mpr fun value hvalue => ?_
    obtain ⟨member, hmem, hconcrete⟩ := exists_of_mem_right ih hvalue
    exact hconcrete ((everywhere_tuple.mp hty).2.1 member hmem)
  case record =>
    intro fields rest isSealed entries ih hty
    refine isConcrete_sealedOf fun entry hentry => ?_
    obtain ⟨field, hfield, -, hconcrete⟩ := exists_of_mem_right ih hentry
    exact hconcrete ((everywhere_record.mp hty).2.1 field (List.mem_of_mem_filter hfield))
  case map => exact fun _ _ => isConcrete_sealedOf fun _ hentry => (by cases hentry)
  case nil => exact fun _ _ _ => Singleton.isProper_ofScalar _
  case value =>
    intro s hty
    have hproper : [s].all Singleton.isProper = true := everywhere_self hty
    exact List.all_eq_true.mp hproper s List.mem_cons_self
  case union => exact fun ty _ ih hty => ih ((everywhere_union.mp hty).2 ty List.mem_cons_self)
  case reference => exact fun _ _ _ ih hty => ih (everywhere_reference.mp hty).2
  case intersection => exact fun _ _ ih hty => ih (everywhere_intersection.mp hty).2
  case table => exact fun hty => (by cases hty)
  case error => exact fun hty => (by cases hty)

/-- **The default of a type inhabits it.** -/
theorem inhabits_default {ty d : Ty} (hty : ty.everywhere isDeclarable = true)
    (h : ty.default = .ok d) : Inhabits d ty :=
  .of_accepts (isConcrete_default hty h) (accepts_default (everywhere_holdsProper hty) h)

end ConstNarrow.Ty
