/-
**Evaluation in step.** Every function of the evaluator keeps two runs in step, if what it asks for
its parts does, and if both runs are given the same for the constants that are named. The type that
an expression gets fits the discipline of the simulation; where it is not the error type, nothing in
the expression is erroneous.

One lemma is proved for each form of expression. At the end the recursion is closed by the height
of expressions, so that the two runs may have different bounds on their nesting.
-/
import ConstNarrow.Proofs.Simulation

set_option autoImplicit false

namespace ConstNarrow

open Checker

namespace Simulation

variable {E : Journal → Prop} {p : Program} {D : Discipline E} (M : Simulation p D)
variable {P : Prop} {eval eval' : Evaluator} {refer refer' : Referrer}

/-- That two evaluators come to the same type for an expression, and to one that fits. -/
def Evaluates (eval eval' : Evaluator) (id : ExprId) : Prop :=
  ∀ frame : Frame, frame.scope = M.scope →
    ∀ {P : Prop}, M.Triple P (eval id frame) (eval' id frame) (M.Fits id)

/-- That two referrers give the same type for the constant that an expression names. -/
def Refers (refer refer' : Referrer) (id : ExprId) : Prop :=
  ∀ target, p.source.referredConstant? M.scope id = some target →
    ∀ {P : Prop}, M.Triple P (refer id target) (refer' id target) (M.Fits id)

/-! ## Names and literals -/

/-- A name is what its referrer gives, if it stands for a constant. The wildcard is given, and
anything else is reported. -/
theorem triple_evalName {id : ExprId} {name : String} (hid : M.inside id)
    (hexpr : p.source.expr id = .reference none name) (hrefer : M.Refers refer refer' id) :
    M.Triple P (evalName p refer id name M.scope) (evalName p refer' id name M.scope)
      (M.Fits id) := by
  -- a name for which there is no constant is taken by itself
  have htakes : (∀ target, p.source.lookup M.scope name ≠ .bound (.constant target)) →
      M.Takes id := fun hno => by
    refine M.takes_leaf ?_ (by rw [hexpr]; rfl)
    simp only [Module.referredConstant?, hexpr]
  unfold evalName
  cases hlookup : p.source.lookup M.scope name with
  | bound binding =>
    cases binding with
    | constant target => exact hrefer target (by simp [Module.referredConstant?, hexpr, hlookup])
    | variableName => exact M.triple_fail (fun _ => (htakes (by simp [hlookup])).seen) id rfl
    | functionName => exact M.triple_fail (fun _ => (htakes (by simp [hlookup])).seen) id rfl
  | wildcard =>
    have hname : name = Module.wildcardName := by
      by_contra hne
      rw [Module.lookup, if_neg hne] at hlookup
      split at hlookup <;> cases hlookup
    exact .pure fun _ => (htakes (by simp [hlookup])).fits (M.wildcard id hid (hname ▸ hexpr))
  | notFound => exact M.triple_fail (fun _ => (htakes (by simp [hlookup])).seen) id rfl

/-- An imported name is given by its module, or else it is reported. -/
theorem triple_evalImported {id : ExprId} {moduleName name : String} (hid : M.inside id)
    (hexpr : p.source.expr id = .reference (some moduleName) name) :
    M.Triple P (evalImported p id moduleName name) (evalImported p id moduleName name)
      (M.Fits id) := by
  have htakes : M.Takes id :=
    M.takes_leaf (by simp [Module.referredConstant?, hexpr]) (by rw [hexpr]; rfl)
  unfold evalImported
  split
  · exact M.triple_fail (fun _ => htakes.seen) id rfl
  · rename_i exports hexports
    split
    · rename_i ty hty
      exact .pure fun _ =>
        htakes.fits (M.imported id moduleName name exports ty hid hexpr hexports hty)
    · exact M.triple_fail (fun _ => htakes.seen) id rfl
    · exact M.triple_fail (fun _ => htakes.seen) id rfl

/-- What a literal is read as is given: a union of values under their natural bases. -/
theorem given_of_reads {ty : Ty} (h : Literal.Reads ty) : D.given ty := by
  obtain ⟨values, hne, hoffers, rfl⟩ := h
  refine D.given_unionOf values hne fun s hs => ?_
  obtain ⟨v, rfl⟩ := hoffers.natural s hs
  exact D.single_ofScalar v

/-- A literal has the type that it is read as, or else it is reported. -/
theorem triple_evalLiteral {id : ExprId} {literal : Literal}
    (hexpr : p.source.expr id = .literal literal) (expected : Option Ty) :
    M.Triple P (evalLiteral p id literal expected) (evalLiteral p id literal expected)
      (M.Fits id) := by
  have htakes : M.Takes id :=
    M.takes_leaf (by simp [Module.referredConstant?, hexpr]) (by rw [hexpr]; rfl)
  unfold evalLiteral
  split
  · rename_i ty hty
    exact .pure fun _ => htakes.fits (given_of_reads (Literal.reads_of_inferType hty))
  · exact M.triple_fail (fun _ => htakes.seen) id rfl

/-! ## Lists -/

/-- What is asked of the types of items of a list: if there are any, they are given, and the items
are sound. -/
structure Itemized (items : List ListItem) (result : Option (List Ty)) : Prop where
  silent : result = none → D.silent
  given : ∀ members, result = some members → ∀ member ∈ members, D.given member
  sound : ∀ members, result = some members → ∀ item ∈ items, M.sound item.expr
  seen : ∀ item ∈ items, M.seen item.expr

section

variable {M} {items others : List ListItem} {result rest : Option (List Ty)}

/-- Items may come to nothing where silence is allowed and all of them were seen. -/
theorem itemized_none (h : D.silent) (hseen : ∀ item ∈ items, M.seen item.expr) :
    M.Itemized items none :=
  ⟨fun _ => h, fun _ h => (by cases h), fun _ h => (by cases h), hseen⟩

/-- Items may come to types if these are given and the items are sound and were seen. -/
theorem itemized_some {members : List Ty} (hgiven : ∀ member ∈ members, D.given member)
    (htakes : ∀ item ∈ items, M.Takes item.expr) : M.Itemized items (some members) where
  silent := fun h => (by cases h)
  given := fun _ h => (by cases h; exact hgiven)
  sound := fun _ _ item hitem => (htakes item hitem).sound
  seen := fun item hitem => (htakes item hitem).seen

/-- If there are types, every item takes any type that is given. -/
theorem Itemized.takes {members : List Ty} (h : M.Itemized items (some members)) :
    ∀ item ∈ items, M.Takes item.expr :=
  fun item hitem => ⟨h.sound members rfl item hitem, h.seen item hitem⟩

/-- Items that stand side by side come to their types in a row, unless either fails. -/
theorem Itemized.append (h : M.Itemized items result) (hrest : M.Itemized others rest) :
    M.Itemized (items ++ others) (result.bind fun members => rest.map (members ++ ·)) := by
  have hseen := List.forall_mem_append.mpr ⟨h.seen, hrest.seen⟩
  cases result with
  | none => exact itemized_none (h.silent rfl) hseen
  | some members =>
    cases rest with
    | none => exact itemized_none (hrest.silent rfl) hseen
    | some more =>
      exact itemized_some (List.forall_mem_append.mpr ⟨h.given _ rfl, hrest.given _ rfl⟩)
        (List.forall_mem_append.mpr ⟨h.takes, hrest.takes⟩)

/-- A member comes to its own type, unless that is erroneous. -/
theorem itemized_member {value : ExprId} {ty : Ty} (h : M.Fits value ty) :
    M.Itemized [.member value] (if ty.isError then none else some [ty]) := by
  split
  · rename_i herror
    exact itemized_none (h.silent herror) (List.forall_mem_singleton.mpr h.seen)
  · rename_i herror
    rw [Bool.not_eq_true] at herror
    exact itemized_some (List.forall_mem_singleton.mpr (h.given herror))
      (List.forall_mem_singleton.mpr (Fits.takes h herror))

end

/-- A list that is spread comes to its members. Anything else that is spread is reported. -/
theorem triple_spreadMembers (operand : ExprId) (ty : Ty) :
    M.Triple (M.Fits operand ty) (spreadMembers operand ty) (spreadMembers operand ty)
      (M.Itemized [.spread operand]) := by
  unfold spreadMembers
  split
  · rename_i herror
    exact .pure fun h => itemized_none (h.silent herror) (List.forall_mem_singleton.mpr h.seen)
  · rename_i herror
    rw [Bool.not_eq_true] at herror
    split
    · rename_i members htuple
      refine .pure fun h => itemized_some ?_ (List.forall_mem_singleton.mpr (Fits.takes h herror))
      exact D.given_tuple members none (htuple ▸ D.given_effective ty (h.given herror))
    · exact (M.triple_report operand rfl).bind fun _ => .pure fun h =>
        itemized_none h.2 (List.forall_mem_singleton.mpr h.1.seen)

/-- **The items of a list**, one by one. Both runs go through all of them, also after one has failed.
-/
theorem triple_evalItems {items : List ListItem} {frame : Frame} (hscope : frame.scope = M.scope)
    (heval : ∀ item ∈ items, M.Evaluates eval eval' item.expr) :
    M.Triple P (evalItems eval frame items) (evalItems eval' frame items) (M.Itemized items) := by
  induction items generalizing P with
  | nil => exact .pure fun _ => itemized_some (fun _ h => (by cases h)) fun _ h => (by cases h)
  | cons item items ih =>
    obtain ⟨hfirst, hrest⟩ := List.forall_mem_cons.mp heval
    cases item with
    | member value =>
      refine (hfirst frame hscope).bind fun ty => (ih hrest).bind fun rest => .pure fun h => ?_
      have happend := (itemized_member h.1.2).append h.2
      cases herror : ty.isError with
      | true =>
        rw [herror] at happend
        exact happend
      | false =>
        rw [herror] at happend
        exact happend
    | spread operand =>
      refine (hfirst (frame.expecting none) hscope).bind fun ty => ?_
      refine ((M.triple_spreadMembers operand ty).weaken (fun h => h.2)).bind
        fun spread => (ih hrest).bind fun rest => .pure fun h => ?_
      exact Itemized.append h.1.2 h.2

/-- **A list** is a tuple of what its items come to. -/
theorem triple_evalList {id : ExprId} {items : List ListItem} {frame : Frame}
    (hexpr : p.source.expr id = .list items) (hscope : frame.scope = M.scope)
    (heval : ∀ e, p.source.Part id e → M.Evaluates eval eval' e) :
    M.Triple P (evalList eval id items frame) (evalList eval' id items frame) (M.Fits id) := by
  have hpart : ∀ e, p.source.Part id e ↔ ∃ item ∈ items, item.expr = e := fun e =>
    Module.part_list_iff hexpr
  have href : p.source.referredConstant? M.scope id = none := by
    simp [Module.referredConstant?, hexpr]
  refine (M.triple_evalItems hscope fun item hitem =>
    heval _ ((hpart _).mpr ⟨item, hitem, rfl⟩)).bind fun result => ?_
  cases result with
  | none =>
    refine (M.triple_note _).bind fun _ => .pure fun h => D.fits_error (h.1.2.silent rfl) ?_
    refine M.hereditary_seen.of_parts id href fun e he => ?_
    obtain ⟨item, hitem, rfl⟩ := (hpart e).mp he
    exact h.1.2.seen item hitem
  | some members =>
    refine .pure fun h => (M.takes_of_parts href fun e he => ?_).fits
      (D.given_tupleOf members (h.2.given members rfl))
    obtain ⟨item, hitem, rfl⟩ := (hpart e).mp he
    exact h.2.takes item hitem

/-! ## Records -/

/-- What is asked of the fields placed so far. -/
structure Placed (D : Discipline E) (placed : Placement) : Prop where
  silent : placed.failed = true → D.silent
  given : placed.failed = false → ∀ entry ∈ placed.fields.toList,
    entry.2.required = true ∧ D.given entry.2.ty

/-- Something was placed: it fits, and unless anything has failed, the given expressions are
sound. -/
structure Places (before : Placement) (exprs : List ExprId) (after : Placement) : Prop where
  placed : Placed D after
  before : after.failed = false → before.failed = false
  sound : after.failed = false → ∀ e ∈ exprs, M.sound e
  seen : ∀ e ∈ exprs, M.seen e

/-- Once anything has failed, all that is asked of the fields is that silence is allowed. -/
theorem placed_failed (placed : Placement) (h : D.silent) :
    Placed D { placed with failed := true } :=
  ⟨fun _ => h, fun hf => (by cases hf)⟩

variable {M} in
/-- So it is with expressions that were to be placed, as long as they were seen. -/
theorem places_failed {exprs : List ExprId} (placed : Placement) (h : D.silent)
    (hseen : ∀ e ∈ exprs, M.seen e) : M.Places placed exprs { placed with failed := true } :=
  ⟨placed_failed placed h, fun hf => (by cases hf), fun hf => (by cases hf), hseen⟩

variable {M} in
/-- To place nothing changes nothing. -/
theorem places_nothing {placed : Placement} (h : Placed D placed) : M.Places placed [] placed :=
  ⟨h, fun hf => hf, fun _ _ he => (by cases he), fun _ he => (by cases he)⟩

/-- A field of a given type may be placed under any name. -/
theorem placed_insert {placed : Placement} (h : Placed D placed) {name : String} {ty : Ty}
    (hty : D.given ty) :
    Placed D { placed with fields := placed.fields.insert name ⟨ty, true⟩ } := by
  refine ⟨h.silent, fun hf entry hentry => ?_⟩
  rcases Fields.mem_toList_insert hentry with rfl | hentry
  · exact ⟨rfl, hty⟩
  · exact h.given hf entry hentry

/-- Of a type that fits: either a field fails with it, or it is given. -/
theorem triple_putField (location : ExprId) (name : String) (ty : Ty) (placed : Placement) :
    M.Triple (Placed D placed ∧ (ty.isError = true → D.silent) ∧ (ty.isError = false → D.given ty))
      (putField location name ty placed) (putField location name ty placed)
      fun after => Placed D after
        ∧ (after.failed = false → placed.failed = false ∧ ty.isError = false) := by
  unfold putField
  split
  · rename_i herror
    exact .pure fun h => ⟨placed_failed placed (h.2.1 herror), fun hf => (by cases hf)⟩
  · rename_i herror
    rw [Bool.not_eq_true] at herror
    split
    · exact (M.triple_report location rfl).bind fun _ => .pure fun h =>
        ⟨placed_failed placed h.2, fun hf => (by cases hf)⟩
    · exact .pure fun h => ⟨placed_insert h.1 (h.2.2 herror), fun hf => ⟨hf, herror⟩⟩

/-- The fields of what is spread are put into their places one by one. -/
theorem triple_putFields (location : ExprId) (fields : List (String × Field)) (placed : Placement) :
    M.Triple (Placed D placed ∧ ∀ entry ∈ fields, D.given entry.2.ty)
      (putFields location fields placed) (putFields location fields placed)
      fun after => Placed D after ∧ (after.failed = false → placed.failed = false) := by
  induction fields generalizing placed with
  | nil => exact .pure fun h => ⟨h.1, fun hf => hf⟩
  | cons field fields ih =>
    refine ((M.triple_putField location field.1 field.2.ty placed).weaken (fun h => ?_)).bind
      fun after => ?_
    · have hgiven := (List.forall_mem_cons.mp h.2).1
      exact ⟨h.1, fun he => D.silent_of_given (Ty.isError_iff.mp he ▸ hgiven), fun _ => hgiven⟩
    · refine (ih after).mono (fun h => ⟨h.2.1, (List.forall_mem_cons.mp h.1.2).2⟩)
        fun last h hlast => ?_
      exact ⟨hlast.1, fun hf => (h.2.2 (hlast.2 hf)).1⟩

/-- A record that is spread puts its fields into their places. Anything else that is spread is
reported. -/
theorem triple_placeSpread (operand : ExprId) (ty : Ty) (placed : Placement) :
    M.Triple (Placed D placed ∧ M.Fits operand ty) (placeSpread operand ty placed)
      (placeSpread operand ty placed) (M.Places placed [operand]) := by
  unfold placeSpread
  split
  · rename_i herror
    exact .pure fun h =>
      places_failed placed (h.2.silent herror) (List.forall_mem_singleton.mpr h.2.seen)
  · rename_i herror
    rw [Bool.not_eq_true] at herror
    split
    · rename_i fields rest isSealed hrecord
      refine (M.triple_putFields operand fields.toList placed).mono (fun h => ⟨h.1, ?_⟩)
        fun after h hafter => ⟨hafter.1, hafter.2, fun _ => ?_, ?_⟩
      · exact D.given_record fields rest isSealed
          (hrecord ▸ D.given_effective ty (h.2.given herror))
      · exact List.forall_mem_singleton.mpr (h.2.sound herror)
      · exact List.forall_mem_singleton.mpr h.2.seen
    · exact (M.triple_report operand rfl).bind fun _ => .pure fun h =>
        places_failed placed h.2 (List.forall_mem_singleton.mpr h.1.2.seen)

/-- The expressions of a field that is not computed. -/
def writtenExprs : RecordField → List ExprId
  | .computed _ _ => []
  | field => field.exprs

/-- The expressions of a computed field. -/
def computedExprs : RecordField → List ExprId
  | .computed key value => [key, value]
  | _ => []

/-- Each expression of a field is met in one of the two passes. -/
theorem mem_exprs_iff {field : RecordField} {e : ExprId} :
    e ∈ field.exprs ↔ e ∈ writtenExprs field ∨ e ∈ computedExprs field := by
  cases field <;> simp [writtenExprs, computedExprs, RecordField.exprs]

/-- **The first pass** over a field places it unless its name is computed. -/
theorem triple_placeWritten {frame : Frame} (hscope : frame.scope = M.scope) {field : RecordField}
    (heval : ∀ e ∈ writtenExprs field, M.Evaluates eval eval' e)
    (hname : ∀ value, field = .reference value → p.source.fieldName? value = none → D.silent)
    (placed : Placement) :
    M.Triple (Placed D placed) (placeWritten p eval frame field placed)
      (placeWritten p eval' frame field placed) (M.Places placed (writtenExprs field)) := by
  have hput : ∀ (value : ExprId) (name : String) (ty : Ty),
      M.Triple (Placed D placed ∧ M.Fits value ty) (putField value name ty placed)
        (putField value name ty placed) (M.Places placed [value]) := fun value name ty =>
    (M.triple_putField value name ty placed).mono (fun h => ⟨h.1, h.2.silent, h.2.given⟩)
      fun after h hafter => ⟨hafter.1, fun hf => (hafter.2 hf).1,
        fun hf => List.forall_mem_singleton.mpr (h.2.sound (hafter.2 hf).2),
        List.forall_mem_singleton.mpr h.2.seen⟩
  cases field with
  | named name value =>
    exact (heval value List.mem_cons_self frame hscope).bind fun ty => hput value name ty
  | computed key value => exact .pure fun h => places_nothing h
  | reference value =>
    refine (heval value List.mem_cons_self frame hscope).bind fun ty => ?_
    split
    · exact hput value _ ty
    · rename_i hnone
      exact .pure fun h =>
        places_failed placed (hname value rfl hnone) (List.forall_mem_singleton.mpr h.2.seen)
  | spread operand =>
    exact (heval operand List.mem_cons_self (frame.expecting none) hscope).bind fun ty =>
      M.triple_placeSpread operand ty placed

/-- **The second pass** over a field places it if its name is computed, under the string that the key
comes to. -/
theorem triple_placeComputed {frame : Frame} (hscope : frame.scope = M.scope) {field : RecordField}
    (heval : ∀ e ∈ computedExprs field, M.Evaluates eval eval' e) (placed : Placement) :
    M.Triple (Placed D placed) (placeComputed eval frame field placed)
      (placeComputed eval' frame field placed) (M.Places placed (computedExprs field)) := by
  cases field with
  | computed key value =>
    refine (heval key List.mem_cons_self (frame.expecting none) hscope).bind fun keyTy => ?_
    refine (heval value (List.mem_cons_of_mem _ List.mem_cons_self) frame hscope).bind
      fun valueTy => ?_
    have hseen : (Placed D placed ∧ M.Fits key keyTy) ∧ M.Fits value valueTy →
        ∀ e ∈ [key, value], M.seen e := fun h =>
      List.forall_mem_cons.mpr ⟨h.1.2.seen, List.forall_mem_singleton.mpr h.2.seen⟩
    split
    · rename_i herror
      refine .pure fun h => places_failed placed ?_ (hseen h)
      rcases Bool.or_eq_true_iff.mp herror with he | he
      · exact h.1.2.silent he
      · exact h.2.silent he
    · rename_i herror
      rw [Bool.not_eq_true, Bool.or_eq_false_iff] at herror
      split
      · refine .pure fun h => ⟨placed_insert h.1.1 (h.2.given herror.2), fun hf => hf, fun _ => ?_,
          hseen h⟩
        exact List.forall_mem_cons.mpr
          ⟨h.1.2.sound herror.1, List.forall_mem_singleton.mpr (h.2.sound herror.2)⟩
      · exact (M.triple_report key rfl).bind fun _ => .pure fun h =>
          places_failed placed h.2 (hseen h.1)
  | named | reference | spread => exact .pure fun h => places_nothing h

/-- One pass over the fields of a record; the two passes differ in the fields that they place. -/
theorem triple_placeEach {place place' : RecordField → Placement → CheckM Placement}
    {exprs : RecordField → List ExprId} {fields : List RecordField}
    (hplace : ∀ field ∈ fields, ∀ placed, M.Triple (Placed D placed) (place field placed)
      (place' field placed) (M.Places placed (exprs field))) (placed : Placement) :
    M.Triple (Placed D placed) (placeEach place fields placed) (placeEach place' fields placed)
      (M.Places placed (fields.flatMap exprs)) := by
  induction fields generalizing placed with
  | nil => exact .pure fun h => places_nothing h
  | cons field fields ih =>
    obtain ⟨hfirst, hrest⟩ := List.forall_mem_cons.mp hplace
    refine (hfirst placed).bind fun after => (ih hrest after).mono (fun h => h.2.placed)
      fun last h hlast => ⟨hlast.placed, fun hf => h.2.before (hlast.before hf), fun hf => ?_, ?_⟩
    · exact List.forall_mem_append.mpr ⟨h.2.sound (hlast.before hf), hlast.sound hf⟩
    · exact List.forall_mem_append.mpr ⟨h.2.seen, hlast.seen⟩

/-- **A record** has the fields that both passes have placed, unless anything has failed. -/
theorem triple_evalRecord {id : ExprId} {fields : List RecordField} {frame : Frame}
    (hid : M.inside id) (hexpr : p.source.expr id = .record fields) (hscope : frame.scope = M.scope)
    (heval : ∀ e, p.source.Part id e → M.Evaluates eval eval' e) :
    M.Triple P (evalRecord p eval fields frame) (evalRecord p eval' fields frame) (M.Fits id) := by
  have hpart : ∀ field ∈ fields, ∀ e ∈ field.exprs, p.source.Part id e := fun field hfield e he =>
    (Module.part_record_iff hexpr).mpr ⟨field, hfield, he⟩
  -- the first pass starts with no fields, the second with those of the first
  refine ((M.triple_placeEach (fun field hfield => M.triple_placeWritten hscope (fun e he => ?_)
    fun value hvalue hnone => ?_) ⟨.nil, false⟩).weaken (fun _ => ?_)).bind
    fun written => ?_
  · exact heval e (hpart field hfield e (mem_exprs_iff.mpr (Or.inl he)))
  · exact M.unnamed id fields value hid hexpr (hvalue ▸ hfield) hnone
  · exact ⟨fun hf => (by cases hf), fun _ _ h => (by cases h)⟩
  refine ((M.triple_placeEach (fun field hfield => M.triple_placeComputed hscope fun e he => ?_)
    written).weaken (fun h => h.2.placed)).bind fun placed => .pure fun h => ?_
  · exact heval e (hpart field hfield e (mem_exprs_iff.mpr (Or.inr he)))
  obtain ⟨⟨-, hwritten⟩, hplaced⟩ := h
  -- each part belongs to a field that the one pass or the other has placed
  have hparts : ∀ {S : ExprId → Prop}, (∀ e ∈ fields.flatMap writtenExprs, S e) →
      (∀ e ∈ fields.flatMap computedExprs, S e) → ∀ e, p.source.Part id e → S e := by
    intro S hwrittenS hcomputedS e he
    obtain ⟨field, hfield, he⟩ := (Module.part_record_iff hexpr).mp he
    rcases mem_exprs_iff.mp he with he | he
    · exact hwrittenS e (List.mem_flatMap.mpr ⟨field, hfield, he⟩)
    · exact hcomputedS e (List.mem_flatMap.mpr ⟨field, hfield, he⟩)
  have href : p.source.referredConstant? M.scope id = none := by
    simp [Module.referredConstant?, hexpr]
  have hseen := M.hereditary_seen.of_parts id href (hparts hwritten.seen hplaced.seen)
  cases hf : placed.failed with
  | true => exact D.fits_error (hplaced.placed.silent hf) hseen
  | false =>
    refine Takes.fits ⟨?_, hseen⟩ (D.given_sealed placed.fields (hplaced.placed.given hf))
    exact M.hereditary_sound.of_parts id href
      (hparts (hwritten.sound (hplaced.before hf)) (hplaced.sound hf))

/-! ## Operators -/

/-- The readings of an operand that no combination uses are dropped from its type. -/
theorem triple_dropReadings {operand : ExprId} (hid : M.inside operand)
    (readings : List Singleton) {kept : List Singleton} (hne : kept ≠ []) :
    M.Triple (M.Takes operand ∧ ∀ s ∈ kept, D.single s) (dropReadings operand readings kept)
      (dropReadings operand readings kept) fun _ => True := by
  unfold dropReadings
  split
  · exact .pure fun _ => trivial
  · exact (M.triple_note _).bind fun _ => (M.triple_setType hid _).mono
      (fun h => h.1.1.fits (D.given_unionOf kept hne h.1.2)) fun _ _ h => h

/-- Both runs fold the same combinations, and note the same ones that have no value. -/
theorem triple_foldBases (op : BinaryOp) (viable : List Combination) (bases : List Primitive) :
    M.Triple P (foldBases op viable bases) (foldBases op viable bases) fun _ => True := by
  induction bases generalizing P with
  | nil => exact .pure fun _ => trivial
  | cons base bases ih =>
    unfold foldBases
    have hnext : ∀ (value : Option Scalar) {R : Prop}, M.Triple R
        (foldBases op viable bases >>= fun values => pure (value.toList ++ values))
        (foldBases op viable bases >>= fun values => pure (value.toList ++ values)) fun _ => True :=
      fun _ _ => ih.bind fun _ => .pure fun _ => trivial
    split
    · exact hnext none
    · dsimp only
      split
      · exact (M.triple_note _).bind fun _ => hnext _
      · exact hnext _

/-- What was folded is a type of its own. If there is nothing, the operator is reported. -/
theorem triple_foldedType (id : ExprId) (symbol : String) (operands : List Ty)
    (folded : List Scalar) :
    M.Triple (M.Takes id) (foldedType id symbol operands folded)
      (foldedType id symbol operands folded) (M.Fits id) := by
  unfold foldedType
  split
  · exact M.triple_fail (fun h => h.seen) id rfl
  · rename_i hne
    refine .pure fun htakes => htakes.fits ?_
    have hmap : (folded.map fun value => Ty.singleton (.ofScalar value))
        = (folded.map Singleton.ofScalar).map Ty.singleton := by
      rw [List.map_map]
      rfl
    rw [hmap]
    -- something was folded, so the union has a member
    refine D.given_unionOf _ (by simpa using hne) fun s hs => ?_
    obtain ⟨v, -, rfl⟩ := List.mem_map.mp hs
    exact D.single_ofScalar v

/-- Where there is a combination, two readings have bases that the operator takes. -/
theorem exists_of_combinations {op : BinaryOp} {ls rs : List Singleton}
    (h : (combinations op ls rs).isEmpty = false) :
    ∃ l ∈ ls, ∃ r ∈ rs, (op.resultBase? l.base r.base).isSome = true := by
  obtain ⟨c, hc⟩ := List.exists_mem_of_ne_nil _ (List.isEmpty_eq_false_iff.mp h)
  obtain ⟨l, hl, hc⟩ := List.mem_flatMap.mp hc
  obtain ⟨r, hr, hbase⟩ := List.mem_filterMap.mp hc
  obtain ⟨base, hbase, -⟩ := Option.map_eq_some_iff.mp hbase
  exact ⟨l, hl, r, hr, Option.isSome_iff_exists.mpr ⟨base, hbase⟩⟩

/-- An operator on two given types: it drops the readings that do not combine, folds the others and
writes its signature. -/
theorem triple_evalBinaryOn (id : ExprId) (op : BinaryOp) {lhs rhs : ExprId} (hlhs : M.inside lhs)
    (hrhs : M.inside rhs) (lhsTy rhsTy : Ty) :
    M.Triple (M.Takes id ∧ (D.given lhsTy ∧ M.Takes lhs) ∧ D.given rhsTy ∧ M.Takes rhs)
      (evalBinaryOn id op lhs rhs lhsTy rhsTy) (evalBinaryOn id op lhs rhs lhsTy rhsTy)
      (M.Fits id) := by
  unfold evalBinaryOn
  dsimp only
  split
  · rename_i ls rs hls hrs
    split
    · exact M.triple_fail (fun h => h.1.seen) id rfl
    · rename_i hviable
      rw [Bool.not_eq_true] at hviable
      obtain ⟨l, hl, r, hr, hdefined⟩ := exists_of_combinations hviable
      -- each operand keeps the reading that takes part in this combination
      have hlhsKept :
          ls.filter (fun l => rs.any fun r => (op.resultBase? l.base r.base).isSome) ≠ [] :=
        List.ne_nil_of_mem (List.mem_filter.mpr ⟨hl, List.any_eq_true.mpr ⟨r, hr, hdefined⟩⟩)
      have hrhsKept :
          rs.filter (fun r => ls.any fun l => (op.resultBase? l.base r.base).isSome) ≠ [] :=
        List.ne_nil_of_mem (List.mem_filter.mpr ⟨hr, List.any_eq_true.mpr ⟨l, hl, hdefined⟩⟩)
      refine ((M.triple_dropReadings hlhs ls hlhsKept).weaken
        (fun h => ⟨h.2.1.2, fun s hs => ?_⟩)).bind fun _ => ?_
      · exact D.single_of_readings lhsTy ls h.2.1.1 hls s (List.mem_of_mem_filter hs)
      refine ((M.triple_dropReadings hrhs rs hrhsKept).weaken
        (fun h => ⟨h.1.2.2.2, fun s hs => ?_⟩)).bind fun _ => ?_
      · exact D.single_of_readings rhsTy rs h.1.2.2.1 hrs s (List.mem_of_mem_filter hs)
      refine (M.triple_foldBases op _ _).bind fun folded => ?_
      refine (M.triple_setSignature id _).bind fun _ => ?_
      exact (M.triple_foldedType id _ _ folded).weaken (fun h => h.1.1.1.1.1)
  · exact M.triple_fail (fun h => h.1.seen) id rfl

/-- **A binary operator** evaluates both operands, also if the first is erroneous. -/
theorem triple_evalBinary {id lhs rhs : ExprId} {op : BinaryOp} {frame : Frame} (hid : M.inside id)
    (hexpr : p.source.expr id = .binary op lhs rhs) (hscope : frame.scope = M.scope)
    (heval : ∀ e, p.source.Part id e → M.Evaluates eval eval' e) :
    M.Triple P (evalBinary eval id op lhs rhs frame) (evalBinary eval' id op lhs rhs frame)
      (M.Fits id) := by
  have hlhs : p.source.Part id lhs := (Module.part_binary_iff hexpr).mpr (Or.inl rfl)
  have hrhs : p.source.Part id rhs := (Module.part_binary_iff hexpr).mpr (Or.inr rfl)
  have hparts : ∀ {S : ExprId → Prop}, S lhs → S rhs → ∀ e, p.source.Part id e → S e := by
    intro S hl hr e he
    rcases (Module.part_binary_iff hexpr).mp he with rfl | rfl
    · exact hl
    · exact hr
  have href : p.source.referredConstant? M.scope id = none := by
    simp [Module.referredConstant?, hexpr]
  refine (heval lhs hlhs frame hscope).bind fun lhsTy => ?_
  refine (heval rhs hrhs frame hscope).bind fun rhsTy => ?_
  split
  · rename_i herror
    refine .pure fun h => D.fits_error ?_
      (M.hereditary_seen.of_parts id href (hparts h.1.2.seen h.2.seen))
    rcases Bool.or_eq_true_iff.mp herror with he | he
    · exact h.1.2.silent he
    · exact h.2.silent he
  · rename_i herror
    rw [Bool.not_eq_true, Bool.or_eq_false_iff] at herror
    refine (M.triple_evalBinaryOn id op (M.inside_part id lhs hid hlhs)
      (M.inside_part id rhs hid hrhs) lhsTy rhsTy).weaken (fun h => ?_)
    have hl := Fits.takes h.1.2 herror.1
    have hr := Fits.takes h.2 herror.2
    exact ⟨M.takes_of_parts href (hparts hl hr), ⟨h.1.2.given herror.1, hl⟩, h.2.given herror.2, hr⟩

/-- **A unary operator** evaluates its operand. Where that is erroneous, nothing is reported again.
-/
theorem triple_evalUnary {id operand : ExprId} {op : UnaryOp} {frame : Frame}
    (hexpr : p.source.expr id = .unary op operand) (hscope : frame.scope = M.scope)
    (heval : ∀ e, p.source.Part id e → M.Evaluates eval eval' e) :
    M.Triple P (evalUnary eval id op operand frame) (evalUnary eval' id op operand frame)
      (M.Fits id) := by
  have hoperand : p.source.Part id operand := (Module.part_unary_iff hexpr).mpr rfl
  have hparts : ∀ {S : ExprId → Prop}, S operand → ∀ e, p.source.Part id e → S e :=
    fun hS e he => (Module.part_unary_iff hexpr).mp he ▸ hS
  have href : p.source.referredConstant? M.scope id = none := by
    simp [Module.referredConstant?, hexpr]
  refine (heval operand hoperand frame hscope).bind fun operandTy => ?_
  split
  · rename_i herror
    exact .pure fun h => D.fits_error (h.2.silent herror)
      (M.hereditary_seen.of_parts id href (hparts h.2.seen))
  · rename_i herror
    rw [Bool.not_eq_true] at herror
    unfold evalUnaryOn
    dsimp only
    split
    · exact M.triple_fail (fun h => M.hereditary_seen.of_parts id href (hparts h.2.seen)) id rfl
    · refine (M.triple_setSignature id _).bind fun _ => ?_
      exact (M.triple_foldedType id _ _ _).weaken
        (fun h => M.takes_of_parts href (hparts (Fits.takes h.1.2 herror)))

/-! ## All expressions -/

/-- **An expression that has no type yet** is evaluated by its form, with one lemma for each. -/
theorem triple_evalFresh {id : ExprId} {frame : Frame} (hid : M.inside id)
    (hscope : frame.scope = M.scope) (hrefer : M.Refers refer refer' id)
    (heval : ∀ e, p.source.Part id e → M.Evaluates eval eval' e) :
    M.Triple P (evalFresh p refer eval id frame) (evalFresh p refer' eval' id frame)
      (M.Fits id) := by
  unfold evalFresh
  split
  · rename_i hexpr
    have htakes : M.Takes id :=
      M.takes_leaf (by simp [Module.referredConstant?, hexpr]) (by rw [hexpr]; rfl)
    exact .pure fun _ => D.fits_error (M.missing id hid hexpr) htakes.seen
  · rename_i literal hexpr
    exact M.triple_evalLiteral hexpr frame.expected
  · rename_i name hexpr
    rw [hscope]
    exact M.triple_evalName hid hexpr hrefer
  · rename_i moduleName name hexpr
    exact M.triple_evalImported hid hexpr
  · rename_i items hexpr
    exact M.triple_evalList hexpr hscope heval
  · rename_i fields hexpr
    exact M.triple_evalRecord hid hexpr hscope heval
  · rename_i op lhs rhs hexpr
    exact M.triple_evalBinary hid hexpr hscope heval
  · rename_i op operand hexpr
    exact M.triple_evalUnary hexpr hscope heval
  · rename_i inner hexpr
    have hinner : p.source.Part id inner := (Module.part_group_iff hexpr).mpr rfl
    have hparts : ∀ {S : ExprId → Prop}, S inner → ∀ e, p.source.Part id e → S e :=
      fun hS e he => (Module.part_group_iff hexpr).mp he ▸ hS
    have href : p.source.referredConstant? M.scope id = none := by
      simp [Module.referredConstant?, hexpr]
    exact (heval inner hinner frame hscope).mono (fun h => h) fun ty _ h => ⟨h.silent, h.given,
      fun herror => M.hereditary_sound.of_parts id href (hparts (h.sound herror)),
      M.hereditary_seen.of_parts id href (hparts h.seen)⟩
  · rename_i form hexpr
    have htakes : M.Takes id :=
      M.takes_leaf (by simp [Module.referredConstant?, hexpr]) (by rw [hexpr]; rfl)
    exact M.triple_fail (fun _ => htakes.seen) id rfl

/-- **One step of evaluation**: an expression that has a type already keeps it in both runs, and any
other gets the same in both. -/
theorem evaluates_evalStep {id : ExprId} (hid : M.inside id) (hrefer : M.Refers refer refer' id)
    (heval : ∀ e, p.source.Part id e → M.Evaluates eval eval' e) :
    M.Evaluates (evalStep p refer eval) (evalStep p refer' eval') id := by
  intro frame hscope P
  refine (M.triple_typeOf? hid).bind fun result => ?_
  cases result with
  | some ty => exact .pure fun h => h.2 ty rfl
  | none =>
    -- the type is kept, so that later evaluations of the expression find it
    refine (M.triple_evalFresh hid hscope hrefer heval).bind fun ty => ?_
    refine ((M.triple_setType hid ty).weaken (fun h => h.2)).bind fun _ => ?_
    exact .pure fun h => h.1.2

/-- **Two evaluators stay in step** if each is made of the same step, with as much room for nesting
as an expression is high, besides the room that their referrers want. -/
theorem evaluates {eval eval' : Nat → Evaluator} (refer refer' : Nat → Referrer)
    (hacyclic : p.source.Acyclic) (hstep : ∀ n, eval (n + 1) = evalStep p (refer n) (eval n))
    (hstep' : ∀ n, eval' (n + 1) = evalStep p (refer' n) (eval' n)) {room room' : Nat}
    (hrefer : ∀ n n' id, room ≤ n → room' ≤ n' → M.inside id → M.Refers (refer n) (refer' n') id)
    {n n' : Nat} {id : ExprId} (hid : M.inside id) (hn : room + p.source.height id < n)
    (hn' : room' + p.source.height id < n') : M.Evaluates (eval n) (eval' n') id := by
  induction n generalizing n' id with
  | zero => exact absurd hn (Nat.not_lt_zero _)
  | succ n ih =>
    -- parts are lower, so what one level uses up is not missed below
    obtain ⟨k, rfl⟩ : ∃ k, n' = k + 1 := ⟨n' - 1, by omega⟩
    rw [hstep n, hstep' k]
    refine M.evaluates_evalStep hid (hrefer n k id (by omega) (by omega) hid) fun e he => ?_
    have hlt := he.height_lt hacyclic
    exact ih (M.inside_part id e hid he) (by omega) (by omega)

end Simulation

end ConstNarrow
