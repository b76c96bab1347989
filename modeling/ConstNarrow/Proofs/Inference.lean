/-
**Inference**: the type of an expression from the types of its parts.

What evaluation makes of an expression depends on the types of its parts, on what is expected of it
and on what names stand for. It does not depend on the state of the check otherwise, and here it is
a function, `inferStep`. What is expected guides some parts and not others: an operand that is spread
and a computed key are evaluated on their own, and their types leave no choice.
-/
import ConstNarrow.Proofs.Folding

set_option autoImplicit false

namespace ConstNarrow

open Checker

/-! ## Parts and what is expected of them -/

/-- A part of an expression, and whether what is expected of the whole guides it. -/
structure Slot where
  part : ExprId
  guided : Bool

/-- What is expected of a part. -/
def Slot.expects (slot : Slot) (expected : Option Ty) : Option Ty :=
  if slot.guided then expected else none

/-- The part of an item. -/
def ListItem.slot : ListItem → Slot
  | .member value => ⟨value, true⟩
  | .spread operand => ⟨operand, false⟩

/-- The parts of a field. -/
def RecordField.slots : RecordField → List Slot
  | .named _ value => [⟨value, true⟩]
  | .computed key value => [⟨key, false⟩, ⟨value, true⟩]
  | .reference value => [⟨value, true⟩]
  | .spread operand => [⟨operand, false⟩]

/-- The parts of an expression. -/
def Expr.slots : Expr → List Slot
  | .list items => items.map ListItem.slot
  | .record fields => fields.flatMap RecordField.slots
  | .binary _ lhs rhs => [⟨lhs, true⟩, ⟨rhs, true⟩]
  | .unary _ operand => [⟨operand, true⟩]
  | .group inner => [⟨inner, true⟩]
  | .missing => []
  | .literal _ => []
  | .reference _ _ => []
  | .unsupported _ => []

/-- The slots of an expression hold its parts, in their order. -/
theorem Expr.map_part_slots (e : Expr) : e.slots.map Slot.part = e.children := by
  cases e with
  | list items =>
    rw [slots, children, List.map_map]
    exact List.map_congr_left fun item _ => by cases item <;> rfl
  | record fields =>
    rw [slots, children, List.map_flatMap]
    exact congrArg (List.flatMap · fields) (funext fun field => by cases field <;> rfl)
  | _ => rfl

theorem Expr.part_mem_children {e : Expr} {slot : Slot} (h : slot ∈ e.slots) :
    slot.part ∈ e.children :=
  e.map_part_slots ▸ List.mem_map_of_mem h

/-! ## The type of an expression -/

/-- The type of a literal. -/
def literalTy (p : Program) (literal : Literal) (expected : Option Ty) : Ty :=
  match literal.inferType expected p.settings.pruneLiterals with
  | .ok ty => ty
  | .error _ => .error

/-- The type of a name, where `given` says what the constants are. -/
def nameTy (p : Program) (given : ConstId → Ty) (scope : ScopeId) (name : String) : Ty :=
  match p.source.lookup scope name with
  | .bound (.constant target) => given target
  | .bound _ => .error
  | .wildcard => .anydata
  | .notFound => .error

/-- The type of a name of an imported module. -/
def importedTy (p : Program) (moduleName name : String) : Ty :=
  match p.imports.lookup moduleName with
  | none => .error
  | some exports =>
    match exports.lookup name with
    | some (.constant ty) => ty
    | _ => .error

/-- The members that a spread operand contributes. -/
def spreadTys? (ty : Ty) : Option (List Ty) :=
  match ty.effective with
  | .tuple members none => some members
  | _ => none

/-- The types of the items of a list, if none is erroneous. -/
def itemTys? (types : ExprId → Ty) : List ListItem → Option (List Ty)
  | [] => some []
  | .member value :: items =>
    if (types value).isError then none else (itemTys? types items).map (types value :: ·)
  | .spread operand :: items =>
    (spreadTys? (types operand)).bind fun members => (itemTys? types items).map (members ++ ·)

/-- The type of a list. -/
def listTy (types : ExprId → Ty) (items : List ListItem) : Ty :=
  match itemTys? types items with
  | some members => .tuple members none
  | none => .error

/-- A placement in which something has failed. -/
def Checker.Placement.fail (placed : Placement) : Placement := { placed with failed := true }

/-- A placement with a field put in its place, whether that is free or not. -/
def Checker.Placement.set (placed : Placement) (name : String) (ty : Ty) : Placement :=
  { placed with fields := placed.fields.insert name ⟨ty, true⟩ }

/-- A placement with a field put in its place, which has to be free. -/
def Checker.Placement.put (placed : Placement) (name : String) (ty : Ty) : Placement :=
  if ty.isError then placed.fail
  else if placed.fields.contains name then placed.fail
  else placed.set name ty

/-- A placement with the fields of a spread operand. -/
def Checker.Placement.spread (placed : Placement) (ty : Ty) : Placement :=
  match ty.effective with
  | .record fields _ _ => fields.toList.foldl (fun placed entry => placed.put entry.1 entry.2.ty) placed
  | _ => placed.fail

/-- A placement with a field that is not computed. -/
def Checker.Placement.written (m : Module) (types : ExprId → Ty) (placed : Placement) :
    RecordField → Placement
  | .named name value => placed.put name (types value)
  | .reference value =>
    match m.fieldName? value with
    | some name => placed.put name (types value)
    | none => placed.fail
  | .spread operand => placed.spread (types operand)
  | .computed _ _ => placed

/-- A placement with a computed field. -/
def Checker.Placement.computed (types : ExprId → Ty) (placed : Placement) : RecordField → Placement
  | .computed key value =>
    if (types value).isError then placed.fail
    else
      match keyOf? (types key) with
      | some name => placed.set name (types value)
      | none => placed.fail
  | _ => placed

/-- The fields of a record, of which the computed ones come last. -/
def placement (m : Module) (types : ExprId → Ty) (fields : List RecordField) : Placement :=
  fields.foldl (Placement.computed types) (fields.foldl (Placement.written m types) ⟨.nil, false⟩)

/-- The type of a record. -/
def recordTy (m : Module) (types : ExprId → Ty) (fields : List RecordField) : Ty :=
  if (placement m types fields).failed then .error
  else .sealedRecord (placement m types fields).fields

/-- The type of a binary operator on operands of given types. -/
def binaryTy (op : BinaryOp) (lhs rhs : Ty) : Ty :=
  match readingsOf? lhs, readingsOf? rhs with
  | some ls, some rs => foldedTy (op.values ls rs)
  | _, _ => .error

/-- The type of a unary operator on an operand of a given type. -/
def unaryTy (op : UnaryOp) (operand : Ty) : Ty :=
  match readingsOf? operand with
  | some rs => foldedTy (op.values rs)
  | none => .error

/-- The type of an expression, where `types` says what its parts are. -/
def inferStep (p : Program) (given : ConstId → Ty) (scope : ScopeId) (expected : Option Ty)
    (types : ExprId → Ty) : Expr → Ty
  | .missing => .error
  | .literal literal => literalTy p literal expected
  | .reference none name => nameTy p given scope name
  | .reference (some moduleName) name => importedTy p moduleName name
  | .list items => listTy types items
  | .record fields => recordTy p.source types fields
  | .binary op lhs rhs => binaryTy op (types lhs) (types rhs)
  | .unary op operand => unaryTy op (types operand)
  | .group inner => types inner
  | .unsupported _ => .error

/-! ## Placing fields -/

namespace Checker.Placement

variable {placed : Placement}

/-- A field that was put without a failure was no error, and its place was free. -/
theorem put_ok {name : String} {ty : Ty} (h : (placed.put name ty).failed = false) :
    ty.isError = false ∧ placed.fields.get? name = none ∧ placed.put name ty = placed.set name ty := by
  unfold put at h ⊢
  split at h
  · cases h
  · rename_i herror
    split at h
    · cases h
    · rename_i hfree
      refine ⟨by simpa using herror, ?_, by rw [if_neg herror, if_neg hfree]⟩
      simpa [Fields.contains] using hfree

theorem get?_set (name other : String) (ty : Ty) :
    (placed.set name ty).fields.get? other
      = if other = name then some ⟨ty, true⟩ else placed.fields.get? other :=
  Fields.get?_insert _ _ _ _

/-- What was placed without a failure: nothing has failed before, and all fields are kept. -/
structure Keeps (before after : Placement) : Prop where
  ok : before.failed = false
  fields : ∀ name field, before.fields.get? name = some field → after.fields.get? name = some field

theorem keeps_self (h : placed.failed = false) : Keeps placed placed := ⟨h, fun _ _ h => h⟩

theorem Keeps.trans {first second third : Placement} (h : Keeps first second)
    (h' : Keeps second third) : Keeps first third :=
  ⟨h.ok, fun name field hfield => h'.fields name field (h.fields name field hfield)⟩

theorem keeps_put {name : String} {ty : Ty} (h : (placed.put name ty).failed = false) :
    Keeps placed (placed.put name ty) := by
  obtain ⟨-, hfree, hput⟩ := put_ok h
  refine ⟨by rw [hput] at h; exact h, fun other field hfield => ?_⟩
  rw [hput, get?_set, if_neg (fun heq => ?_)]
  · exact hfield
  · rw [heq, hfree] at hfield
    cases hfield

theorem keeps_foldl {α : Type} {f : Placement → α → Placement}
    (hf : ∀ placed a, (f placed a).failed = false → Keeps placed (f placed a)) (l : List α)
    (h : (l.foldl f placed).failed = false) : Keeps placed (l.foldl f placed) := by
  induction l generalizing placed with
  | nil => exact keeps_self h
  | cons a l ih => exact (hf placed a (ih h).ok).trans (ih h)

theorem keeps_spread {ty : Ty} (h : (placed.spread ty).failed = false) :
    Keeps placed (placed.spread ty) := by
  unfold spread at h ⊢
  split at h
  · exact keeps_foldl (fun _ _ => keeps_put) _ h
  · cases h

theorem keeps_written {m : Module} {types : ExprId → Ty} {field : RecordField}
    (h : (placed.written m types field).failed = false) :
    Keeps placed (placed.written m types field) := by
  cases field with
  | named name value => exact keeps_put h
  | computed key value => exact keeps_self h
  | reference value =>
    unfold written at h ⊢
    dsimp only at h ⊢
    split at h
    · exact keeps_put h
    · cases h
  | spread operand => exact keeps_spread h

/-- A field is written under a name. -/
def Writes (m : Module) (field : RecordField) (name : Option String) (value : ExprId) : Prop :=
  (∃ key, name = some key ∧ field = .named key value)
    ∨ (name = m.fieldName? value ∧ field = .reference value)

/-- What is placed without a failure is not erroneous. -/
theorem isError_of_written {m : Module} {types : ExprId → Ty} {field : RecordField}
    (h : (placed.written m types field).failed = false) (hfield : ∀ key value, field ≠ .computed key value) :
    ∀ e ∈ field.exprs, (types e).isError = false := by
  cases field with
  | named name value => exact List.forall_mem_singleton.mpr (put_ok h).1
  | computed key value => exact absurd rfl (hfield key value)
  | reference value =>
    rw [written] at h
    split at h
    · exact List.forall_mem_singleton.mpr (put_ok h).1
    · cases h
  | spread operand =>
    refine List.forall_mem_singleton.mpr ?_
    cases hty : types operand with
    | error =>
      rw [written, hty] at h
      cases h
    | _ => rfl

/-- A field that is written has its place. -/
theorem get?_written {m : Module} {types : ExprId → Ty} {fields : List RecordField}
    (h : (fields.foldl (written m types) placed).failed = false) {field : RecordField}
    (hfield : field ∈ fields) {name : Option String} {value : ExprId}
    (hwrites : Writes m field name value) :
    ∃ key, name = some key
      ∧ (fields.foldl (written m types) placed).fields.get? key = some ⟨types value, true⟩ := by
  induction fields generalizing placed with
  | nil => cases hfield
  | cons first fields ih =>
    rw [List.foldl_cons] at h ⊢
    rcases List.mem_cons.mp hfield with rfl | hfield
    -- placed now, and kept by all that comes later
    · have hkeeps := keeps_foldl (fun _ _ => keeps_written) fields h
      have hfirst := hkeeps.ok
      rcases hwrites with ⟨key, rfl, rfl⟩ | ⟨hname, rfl⟩
      · refine ⟨key, rfl, hkeeps.fields _ _ ?_⟩
        rw [written, (put_ok hfirst).2.2, get?_set, if_pos rfl]
      · rw [written] at hfirst
        cases hkey : m.fieldName? value with
        | none =>
          rw [hkey] at hfirst
          cases hfirst
        | some key =>
          rw [hkey] at hfirst
          refine ⟨key, hname.trans hkey, hkeeps.fields _ _ ?_⟩
          rw [written, hkey]
          dsimp only
          rw [(put_ok hfirst).2.2, get?_set, if_pos rfl]
    · exact ih h hfield

/-- A computed field that was placed has a name and is no error. -/
theorem computed_ok {types : ExprId → Ty} {key value : ExprId}
    (h : (placed.computed types (.computed key value)).failed = false) :
    (types value).isError = false ∧ ∃ name, keyOf? (types key) = some name
      ∧ placed.computed types (.computed key value) = placed.set name (types value) := by
  unfold computed at h ⊢
  dsimp only at h ⊢
  split at h
  · cases h
  · rename_i herror
    cases hname : keyOf? (types key) with
    | none =>
      rw [hname] at h
      cases h
    | some name => exact ⟨by simpa using herror, name, rfl, by rw [if_neg herror]⟩

theorem failed_of_computed {types : ExprId → Ty} {field : RecordField}
    (h : (placed.computed types field).failed = false) : placed.failed = false := by
  cases field with
  | computed key value =>
    obtain ⟨-, name, -, hset⟩ := computed_ok h
    rw [hset] at h
    exact h
  | _ => exact h

theorem isError_of_computed {types : ExprId → Ty} {key value : ExprId}
    (h : (placed.computed types (.computed key value)).failed = false) :
    (types key).isError = false ∧ (types value).isError = false := by
  obtain ⟨hvalue, name, hname, -⟩ := computed_ok h
  refine ⟨?_, hvalue⟩
  cases hty : types key with
  | error =>
    rw [hty] at hname
    cases hname
  | _ => rfl

theorem failed_of_foldl_computed {types : ExprId → Ty} (fields : List RecordField)
    (h : (fields.foldl (computed types) placed).failed = false) : placed.failed = false := by
  induction fields generalizing placed with
  | nil => exact h
  | cons field fields ih => exact failed_of_computed (ih h)

end Checker.Placement

/-- The names that the computed keys of some fields have. -/
def keyNamesOf (name? : ExprId → Option String) : List RecordField → List String
  | [] => []
  | .computed key _ :: fields => (name? key).toList ++ keyNamesOf name? fields
  | _ :: fields => keyNamesOf name? fields

namespace Checker.Placement

variable {placed : Placement} {types : ExprId → Ty}

/-- Computed fields leave all names alone that they do not write. -/
theorem get?_foldl_computed {fields : List RecordField}
    (h : (fields.foldl (computed types) placed).failed = false) {name : String}
    (hname : name ∉ keyNamesOf (fun key => keyOf? (types key)) fields) :
    (fields.foldl (computed types) placed).fields.get? name = placed.fields.get? name := by
  induction fields generalizing placed with
  | nil => rfl
  | cons field fields ih =>
    rw [List.foldl_cons] at h ⊢
    cases field with
    | computed key value =>
      obtain ⟨-, other, hother, hset⟩ := computed_ok (failed_of_foldl_computed fields h)
      rw [keyNamesOf, hother, Option.toList_some, List.singleton_append, List.mem_cons, not_or] at hname
      rw [ih h hname.2, hset, get?_set, if_neg hname.1]
    | _ => exact ih h hname

/-- A computed field has its place, unless a later one has taken it. -/
theorem get?_computed {before fields : List RecordField} {key value : ExprId}
    (h : ((before ++ .computed key value :: fields).foldl (computed types) placed).failed = false) :
    ∃ name, keyOf? (types key) = some name
      ∧ (name ∉ keyNamesOf (fun key => keyOf? (types key)) fields →
        ((before ++ .computed key value :: fields).foldl (computed types) placed).fields.get? name
          = some ⟨types value, true⟩) := by
  rw [List.foldl_append, List.foldl_cons] at h
  obtain ⟨-, name, hname, hset⟩ := computed_ok (failed_of_foldl_computed fields h)
  refine ⟨name, hname, fun hlast => ?_⟩
  rw [List.foldl_append, List.foldl_cons, get?_foldl_computed h hlast, hset, get?_set, if_pos rfl]

/-- **Nothing that is placed in a record is erroneous.** -/
theorem isError_of_placement {m : Module} {fields : List RecordField}
    (h : (placement m types fields).failed = false) :
    ∀ e ∈ fields.flatMap RecordField.exprs, (types e).isError = false := by
  have hwritten := failed_of_foldl_computed fields h
  intro e hmem
  obtain ⟨field, hfield, he⟩ := List.mem_flatMap.mp hmem
  obtain ⟨before, after, rfl⟩ := List.append_of_mem hfield
  -- a computed field is placed by the second walk, and any other by the first
  by_cases hcomputed : ∃ key value, field = .computed key value
  · obtain ⟨key, value, rfl⟩ := hcomputed
    rw [placement, List.foldl_append, List.foldl_cons] at h
    obtain ⟨hkey, hvalue⟩ := isError_of_computed (failed_of_foldl_computed after h)
    rcases List.mem_cons.mp he with rfl | he
    · exact hkey
    · rw [List.mem_singleton.mp he]
      exact hvalue
  · rw [List.foldl_append, List.foldl_cons] at hwritten
    have hok := (keeps_foldl (fun _ _ => keeps_written) after hwritten).ok
    exact isError_of_written hok (fun key value heq => hcomputed ⟨key, value, heq⟩) e he

end Checker.Placement

/-! ## What types are inferred -/

/-- A literal offers a choice of values, each under its own primitive. -/
theorem literalTy_ok {p : Program} {literal : Literal} {expected : Option Ty}
    (h : (literalTy p literal expected).isError = false) : ∃ values, Ty.IsChoice values
      ∧ (∀ s ∈ values, s = .ofScalar s.value) ∧ literalTy p literal expected = Ty.ofValues values := by
  unfold literalTy at h ⊢
  split at h
  · rename_i ty hty
    obtain ⟨values, hne, hoffers, rfl⟩ := Literal.reads_of_inferType hty
    have hnatural : ∀ s ∈ values, s = .ofScalar s.value := by
      intro s hs
      obtain ⟨v, rfl⟩ := hoffers.natural s hs
      rfl
    exact ⟨values, Ty.isChoice_of_natural hne hoffers.apart hnatural, hnatural,
      Ty.unionOf_singletons_eq hne hoffers.apart⟩
  · cases h

theorem isOperand_literalTy (p : Program) (literal : Literal) (expected : Option Ty) :
    (literalTy p literal expected).IsOperand := by
  cases h : (literalTy p literal expected).isError with
  | true =>
    rw [Ty.isError_iff.mp h]
    exact .error
  | false =>
    obtain ⟨values, hchoice, hnatural, heq⟩ := literalTy_ok h
    rw [heq]
    exact .ofNatural hchoice hnatural

/-- An erroneous type has no readings. -/
theorem isError_of_readingsOf? {ty : Ty} {rs : List Singleton} (h : readingsOf? ty = some rs) :
    ty.isError = false := by
  cases ty with
  | error => cases h
  | _ => rfl

/-- A binary operator that is not erroneous has a choice of values. -/
theorem binaryTy_ok {op : BinaryOp} {lhs rhs : Ty} (h : (binaryTy op lhs rhs).isError = false) :
    ∃ ls rs, readingsOf? lhs = some ls ∧ readingsOf? rhs = some rs
      ∧ Ty.IsChoice ((op.values ls rs).map .ofScalar)
      ∧ binaryTy op lhs rhs = Ty.ofValues ((op.values ls rs).map .ofScalar) := by
  unfold binaryTy at h ⊢
  split at h
  · rename_i ls rs hls hrs
    obtain ⟨hchoice, heq⟩ := (op.apart_values ls rs).foldedTy_ok h
    exact ⟨ls, rs, hls, hrs, hchoice, heq⟩
  · cases h

/-- So has a unary one. -/
theorem unaryTy_ok {op : UnaryOp} {operand : Ty} (hoperand : operand.IsOperand)
    (h : (unaryTy op operand).isError = false) :
    ∃ rs, readingsOf? operand = some rs ∧ Ty.IsChoice ((op.values rs).map .ofScalar)
      ∧ unaryTy op operand = Ty.ofValues ((op.values rs).map .ofScalar) := by
  unfold unaryTy at h ⊢
  split at h
  · rename_i rs hrs
    obtain ⟨hrsChoice, hcoherent, -⟩ := hoperand.readings hrs
    obtain ⟨hchoice, heq⟩ := (UnaryOp.apart_values hrsChoice hcoherent).foldedTy_ok h
    exact ⟨rs, hrs, hchoice, heq⟩
  · cases h

/-- A literal of which nothing is expected has one reading. -/
theorem definite_literalTy (p : Program) (literal : Literal) :
    (literalTy p literal none).Definite := by
  -- readings that come from one attempt to read are one at most
  have htypeOf : ∀ (text : String) (reading : Option Singleton) (ty : Ty),
      Literal.typeOf text reading.toList = .ok ty → ty.Definite := by
    intro text reading ty h
    cases reading with
    | none => cases h
    | some s =>
      cases h
      exact .value s
  unfold literalTy
  split
  · rename_i ty hty
    cases literal with
    | int text =>
      rw [Literal.inferType, Option.filter_none] at hty
      cases hread : Literal.readInt? text with
      | none =>
        rw [hread] at hty
        cases hty
      | some i =>
        rw [hread] at hty
        cases hty
        exact .value _
    | float text =>
      rw [Literal.inferType, Option.filter_none] at hty
      split at hty
      · exact htypeOf _ _ _ hty
      · exact htypeOf _ _ _ hty
      · exact htypeOf _ _ _ hty
      · rename_i heq
        cases heq
    | hexFloat text => exact htypeOf _ _ _ hty
    | string value | boolean value | nil =>
      cases hty
      exact .value _
  · exact .error

section Parts

variable {P : Ty → Prop} {types : ExprId → Ty}

/-- What holds of the items and is inherited by parts holds of the members. -/
theorem forall_itemTys? (hP : Ty.Hereditary P) {items : List ListItem} {members : List Ty}
    (htypes : ∀ item ∈ items, P (types item.expr)) (h : itemTys? types items = some members) :
    ∀ ty ∈ members, P ty := by
  induction items generalizing members with
  | nil =>
    cases h
    exact fun _ hty => (by cases hty)
  | cons item items ih =>
    have hrest := fun {members} => @ih members fun item hitem => htypes item (List.mem_cons_of_mem _ hitem)
    cases item with
    | member value =>
      rw [itemTys?] at h
      split at h
      · cases h
      · obtain ⟨rest, hmembers, rfl⟩ := Option.map_eq_some_iff.mp h
        exact List.forall_mem_cons.mpr ⟨htypes _ List.mem_cons_self, hrest hmembers⟩
    | spread operand =>
      rw [itemTys?] at h
      obtain ⟨own, hown, h⟩ := Option.bind_eq_some_iff.mp h
      obtain ⟨rest, hmembers, rfl⟩ := Option.map_eq_some_iff.mp h
      have hoperand : P (types operand) := htypes _ List.mem_cons_self
      rw [spreadTys?, hP.effective _ hoperand] at hown
      split at hown
      · rename_i heq
        cases hown
        exact List.forall_mem_append.mpr ⟨hP.tuple _ _ (heq ▸ hoperand), hrest hmembers⟩
      · cases hown

theorem isError_of_itemTys? {items : List ListItem} {members : List Ty}
    (h : itemTys? types items = some members) :
    ∀ item ∈ items, (types item.expr).isError = false := by
  induction items generalizing members with
  | nil => exact fun _ hitem => (by cases hitem)
  | cons item items ih =>
    cases item with
    | member value =>
      rw [itemTys?] at h
      split at h
      · cases h
      · rename_i herror
        obtain ⟨rest, hrest, -⟩ := Option.map_eq_some_iff.mp h
        exact List.forall_mem_cons.mpr ⟨Bool.not_eq_true _ ▸ herror, ih hrest⟩
    | spread operand =>
      rw [itemTys?] at h
      obtain ⟨own, hown, h⟩ := Option.bind_eq_some_iff.mp h
      obtain ⟨rest, hrest, -⟩ := Option.map_eq_some_iff.mp h
      refine List.forall_mem_cons.mpr ⟨?_, ih hrest⟩
      cases hty : types operand with
      | error =>
        rw [hty] at hown
        cases hown
      | _ => exact congrArg Ty.isError hty

namespace Checker.Placement

variable {placed : Placement}

/-- All fields that are placed are required, and their types have a property. -/
def Holds (P : Ty → Prop) (placed : Placement) : Prop :=
  ∀ entry ∈ placed.fields.toList, entry.2.required = true ∧ P entry.2.ty

theorem Holds.set (h : Holds P placed) (name : String) {ty : Ty} (hty : P ty) :
    Holds P (placed.set name ty) := by
  intro entry hentry
  rcases Fields.mem_toList_insert hentry with rfl | hentry
  · exact ⟨rfl, hty⟩
  · exact h entry hentry

theorem Holds.put (h : Holds P placed) (name : String) {ty : Ty} (hty : P ty) :
    Holds P (placed.put name ty) := by
  unfold Placement.put
  split
  · exact h
  · split
    · exact h
    · exact h.set name hty

theorem Holds.foldl {α : Type} {f : Placement → α → Placement} {l : List α}
    (hf : ∀ a ∈ l, ∀ placed, Holds P placed → Holds P (f placed a)) (h : Holds P placed) :
    Holds P (l.foldl f placed) := by
  induction l generalizing placed with
  | nil => exact h
  | cons a l ih =>
    exact ih (fun b hb => hf b (List.mem_cons_of_mem _ hb)) (hf a List.mem_cons_self placed h)

theorem Holds.spread (hP : Ty.Hereditary P) (h : Holds P placed) {ty : Ty} (hty : P ty) :
    Holds P (placed.spread ty) := by
  rw [Placement.spread, hP.effective ty hty]
  split
  · exact h.foldl fun entry hentry placed hplaced => hplaced.put _ (hP.record _ _ _ hty entry hentry)
  · exact h

theorem Holds.written (hP : Ty.Hereditary P) (m : Module) {field : RecordField}
    (htypes : ∀ e ∈ field.exprs, P (types e)) (h : Holds P placed) :
    Holds P (placed.written m types field) := by
  cases field with
  | named name value => exact h.put name (htypes value (by simp [RecordField.exprs]))
  | computed key value => exact h
  | reference value =>
    unfold Placement.written
    dsimp only
    split
    · exact h.put _ (htypes value (by simp [RecordField.exprs]))
    · exact h
  | spread operand => exact h.spread hP (htypes operand (by simp [RecordField.exprs]))

theorem Holds.computed {field : RecordField} (htypes : ∀ e ∈ field.exprs, P (types e))
    (h : Holds P placed) : Holds P (placed.computed types field) := by
  cases field with
  | computed key value =>
    unfold Placement.computed
    dsimp only
    split
    · exact h
    · split
      · exact h.set _ (htypes value (by simp [RecordField.exprs]))
      · exact h
  | _ => exact h

/-- **What holds of the parts of a record holds of all that is placed in it.** -/
theorem holds_placement (hP : Ty.Hereditary P) (m : Module) {fields : List RecordField}
    (htypes : ∀ field ∈ fields, ∀ e ∈ field.exprs, P (types e)) :
    Holds P (placement m types fields) := by
  have hnone : Holds P ⟨.nil, false⟩ := fun _ hentry => (by cases hentry)
  exact .foldl (fun field hfield _ h => h.computed (htypes field hfield))
    (.foldl (fun field hfield _ h => h.written hP m (htypes field hfield)) hnone)

end Checker.Placement

end Parts

section Types

variable {p : Program} {given : ConstId → Ty} {scope : ScopeId} {types : ExprId → Ty} {e : Expr}

/-- **Operands lead to operands.** -/
theorem isOperand_inferStep {expected : Option Ty}
    (hname : ∀ name, e = .reference none name → (nameTy p given scope name).IsOperand)
    (himported : ∀ source name, e = .reference (some source) name →
      (importedTy p source name).IsOperand)
    (htypes : ∀ part ∈ e.children, (types part).IsOperand) :
    (inferStep p given scope expected types e).IsOperand := by
  cases e with
  | missing | unsupported => exact .error
  | literal literal => exact isOperand_literalTy p literal expected
  | reference source name =>
    cases source with
    | none => exact hname name rfl
    | some source => exact himported source name rfl
  | list items =>
    rw [inferStep, listTy]
    split
    · rename_i members hmembers
      exact .tuple (forall_itemTys? Ty.hereditary_tentative
        (fun item hitem => (htypes _ (List.mem_map_of_mem hitem)).tentative) hmembers)
    · exact .error
  | record fields =>
    rw [inferStep, recordTy]
    split
    · exact .error
    · exact .record (Placement.holds_placement Ty.hereditary_tentative p.source fun field hfield e he =>
        (htypes e (List.mem_flatMap.mpr ⟨field, hfield, he⟩)).tentative)
  | binary op lhs rhs =>
    rw [inferStep, binaryTy]
    split
    · exact (op.apart_values _ _).isOperand_foldedTy
    · exact .error
  | unary op operand =>
    rw [inferStep, unaryTy]
    split
    · rename_i rs hrs
      obtain ⟨hchoice, hcoherent, -⟩ :=
        (htypes operand List.mem_cons_self).readings hrs
      exact (UnaryOp.apart_values hchoice hcoherent).isOperand_foldedTy
    · exact .error
  | group inner => exact htypes inner List.mem_cons_self

/-- **An erroneous part makes the whole erroneous.** -/
theorem isError_of_inferStep {expected : Option Ty}
    (h : (inferStep p given scope expected types e).isError = false) :
    ∀ part ∈ e.children, (types part).isError = false := by
  cases e with
  | missing | literal | reference | unsupported => exact fun _ hpart => (by cases hpart)
  | list items =>
    rw [inferStep, listTy] at h
    split at h
    · rename_i members hmembers
      intro part hpart
      obtain ⟨item, hitem, rfl⟩ := List.mem_map.mp hpart
      exact isError_of_itemTys? hmembers item hitem
    · cases h
  | record fields =>
    rw [inferStep, recordTy] at h
    split at h
    · cases h
    · rename_i hok
      exact Placement.isError_of_placement (by simpa using hok)
  | binary op lhs rhs =>
    rw [inferStep] at h
    obtain ⟨ls, rs, hls, hrs, -⟩ := binaryTy_ok h
    exact List.forall_mem_cons.mpr
      ⟨isError_of_readingsOf? hls, List.forall_mem_singleton.mpr (isError_of_readingsOf? hrs)⟩
  | unary op operand =>
    rw [inferStep, unaryTy] at h
    split at h
    · rename_i hrs
      exact List.forall_mem_singleton.mpr (isError_of_readingsOf? hrs)
    · cases h
  | group inner => exact List.forall_mem_singleton.mpr h

/-- Of one reading on either side there is one value at most. -/
theorem BinaryOp.values_pair (op : BinaryOp) (a b : Singleton) :
    op.values [a] [b]
      = ((op.resultBase? a.base b.base).bind fun k => op.fold? a.value b.value k).toList := by
  cases h : op.resultBase? a.base b.base with
  | none => simp [values, combinations, h]
  | some k =>
    have hcombinations : combinations op [a] [b] = [⟨a, b, k⟩] := by simp [combinations, h]
    cases hfold : op.fold? a.value b.value k with
    | none => simp [values, hcombinations, hfold, List.eraseDups_cons]
    | some v => simp [values, hcombinations, hfold, List.eraseDups_cons]

theorem UnaryOp.values_one (op : UnaryOp) (a : Singleton) :
    op.values [a] = ((op.resultBase? a.base).bind fun _ => op.fold? a.value).toList := by
  cases h : op.resultBase? a.base with
  | none => simp [values, applicable, h]
  | some k =>
    cases hfold : op.fold? a.value with
    | none => simp [values, applicable, h, hfold]
    | some v => simp [values, applicable, h, hfold]

theorem definite_foldedTy (value : Option Scalar) : (foldedTy value.toList).Definite := by
  cases value with
  | none => exact .error
  | some v => exact .value _

/-- **Where nothing is expected, no choice is left.** -/
theorem definite_inferStep
    (hname : ∀ name, e = .reference none name → (nameTy p given scope name).Definite)
    (himported : ∀ source name, e = .reference (some source) name →
      (importedTy p source name).Definite)
    (hoperands : ∀ part ∈ e.children, (types part).IsOperand)
    (htypes : ∀ part ∈ e.children, (types part).Definite) :
    (inferStep p given scope none types e).Definite := by
  cases e with
  | missing | unsupported => exact .error
  | literal literal => exact definite_literalTy p literal
  | reference source name =>
    cases source with
    | none => exact hname name rfl
    | some source => exact himported source name rfl
  | list items =>
    rw [inferStep, listTy]
    split
    · rename_i members hmembers
      exact .tuple (forall_itemTys? Ty.hereditary_definite
        (fun item hitem => htypes _ (List.mem_map_of_mem hitem)) hmembers)
    · exact .error
  | record fields =>
    have hholds : Placement.Holds Ty.Definite (placement p.source types fields) :=
      Placement.holds_placement Ty.hereditary_definite p.source fun field hfield e he =>
        htypes e (List.mem_flatMap.mpr ⟨field, hfield, he⟩)
    rw [inferStep, recordTy]
    split
    · exact .error
    · exact .record (fun entry he => (hholds entry he).1) fun entry he => (hholds entry he).2
  | binary op lhs rhs =>
    rw [inferStep, binaryTy]
    split
    -- one reading on either side leaves one combination
    · rename_i ls rs hls hrs
      obtain ⟨-, -, hlhs⟩ := (hoperands lhs List.mem_cons_self).readings hls
      obtain ⟨-, -, hrhs⟩ :=
        (hoperands rhs (List.mem_cons_of_mem _ List.mem_cons_self)).readings hrs
      obtain ⟨a, rfl⟩ := Ty.Definite.eq_singleton (hlhs ▸ htypes lhs List.mem_cons_self)
      obtain ⟨b, rfl⟩ := Ty.Definite.eq_singleton
        (hrhs ▸ htypes rhs (List.mem_cons_of_mem _ List.mem_cons_self))
      rw [BinaryOp.values_pair]
      exact definite_foldedTy _
    · exact .error
  | unary op operand =>
    rw [inferStep, unaryTy]
    split
    · rename_i rs hrs
      obtain ⟨-, -, hoperand⟩ := (hoperands operand List.mem_cons_self).readings hrs
      obtain ⟨a, rfl⟩ := Ty.Definite.eq_singleton (hoperand ▸ htypes operand List.mem_cons_self)
      rw [UnaryOp.values_one]
      exact definite_foldedTy _
    · exact .error
  | group inner => exact htypes inner List.mem_cons_self

end Types

end ConstNarrow
