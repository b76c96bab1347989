/-
**Evaluation of trees.**

An expression that stands in one place is evaluated once, part by part, and the parts do not get in
each other's way. If all constants that it names are resolved, evaluation comes to an end with the
type that `inferStep` makes of the types of the parts. The tables then hold the type of every part
down to the leaves, less the readings that an operator had no use for, and the signature of every
operator: the type is `Held`.
-/
import ConstNarrow.Proofs.Resolution
import ConstNarrow.Proofs.Walk

set_option autoImplicit false

namespace ConstNarrow

open Checker

/-! ## What an operator leaves behind -/

namespace BinaryOp

variable {op : BinaryOp} {ls rs : List Singleton}

/-- The readings of the left operand that take part in a combination. -/
def keptLeft (op : BinaryOp) (ls rs : List Singleton) : List Singleton :=
  ls.filter fun l => rs.any fun r => (op.resultBase? l.base r.base).isSome

/-- The readings of the right operand that take part in a combination. -/
def keptRight (op : BinaryOp) (ls rs : List Singleton) : List Singleton :=
  rs.filter fun r => ls.any fun l => (op.resultBase? l.base r.base).isSome

/-- The signature with which an operator is used on readings. -/
def signature (op : BinaryOp) (ls rs : List Singleton) : Signature :=
  ⟨[baseUnion (op.keptLeft ls rs), baseUnion (op.keptRight ls rs)],
    .unionOf (((combinations op ls rs).map Combination.base).eraseDups.map .primitive)⟩

theorem mem_keptLeft {l r : Singleton} {k : Primitive} (hl : l ∈ ls) (hr : r ∈ rs)
    (hk : op.resultBase? l.base r.base = some k) : l ∈ op.keptLeft ls rs :=
  List.mem_filter.mpr ⟨hl, List.any_eq_true.mpr ⟨r, hr, by rw [hk]; rfl⟩⟩

theorem mem_keptRight {l r : Singleton} {k : Primitive} (hl : l ∈ ls) (hr : r ∈ rs)
    (hk : op.resultBase? l.base r.base = some k) : r ∈ op.keptRight ls rs :=
  List.mem_filter.mpr ⟨hr, List.any_eq_true.mpr ⟨l, hl, by rw [hk]; rfl⟩⟩

/-- If the operator is defined for some readings, some are kept on either side. -/
theorem kept_ne_nil (h : (combinations op ls rs).isEmpty = false) :
    op.keptLeft ls rs ≠ [] ∧ op.keptRight ls rs ≠ [] := by
  obtain ⟨c, hc⟩ := List.exists_mem_of_ne_nil _ (List.isEmpty_eq_false_iff.mp h)
  obtain ⟨hl, hr, hk⟩ := mem_combinations.mp hc
  exact ⟨List.ne_nil_of_mem (mem_keptLeft hl hr hk), List.ne_nil_of_mem (mem_keptRight hl hr hk)⟩

end BinaryOp

/-- The signature with which an operator is used on readings. -/
def UnaryOp.signature (op : UnaryOp) (rs : List Singleton) : Signature :=
  ⟨[baseUnion (op.applicable rs)],
    .unionOf (((op.applicable rs).filterMap fun s => op.resultBase? s.base).map .primitive)⟩

/-- A table in which an operand has the readings that are kept, if some are dropped. -/
def prune (types : Table Ty) (operand : ExprId) (readings kept : List Singleton) : Table Ty :=
  if kept.length = readings.length then types
  else types.insert operand (Ty.unionOf (kept.map Ty.singleton))

theorem get?_prune_ne (types : Table Ty) {operand e : ExprId} (h : e ≠ operand)
    (readings kept : List Singleton) : (prune types operand readings kept).get? e = types.get? e := by
  unfold prune
  split
  · rfl
  · rw [Table.get?_insert, if_neg h]

/-- The operand has the readings that are kept, whether or not some were dropped. -/
theorem get?_prune_self {types : Table Ty} {operand : ExprId} {readings kept : List Singleton}
    (hreadings : Ty.IsChoice readings) (hkept : kept.Sublist readings) (hne : kept ≠ [])
    (h : types.get? operand = some (Ty.ofValues readings)) :
    (prune types operand readings kept).get? operand = some (Ty.ofValues kept) := by
  unfold prune
  split
  · rename_i hlength
    rw [hkept.eq_of_length hlength]
    exact h
  · rw [Table.get?_insert, if_pos rfl, Ty.unionOf_singletons_eq hne (hreadings.sublist hkept hne).apart]

namespace Checker

variable {p : Program} {s t : Checker}

theorem run_dropReadings (operand : ExprId) (readings kept : List Singleton) (s : Checker) :
    ∃ j, s.journal.Calm j ∧ (dropReadings operand readings kept).run s
      = some ((), { s with exprTypes := prune s.exprTypes operand readings kept, journal := j }) := by
  unfold dropReadings prune
  split
  · exact ⟨s.journal, .refl _, rfl⟩
  · exact ⟨_, s.journal.calm_note fun _ h => (by cases h), rfl⟩

/-- **What a binary operator does that is defined for some readings**: it drops the others and notes
its signature. -/
theorem run_evalBinaryOn (id : ExprId) {op : BinaryOp} (lhs rhs : ExprId) {lhsTy rhsTy : Ty}
    {ls rs : List Singleton} (hls : readingsOf? lhsTy = some ls) (hrs : readingsOf? rhsTy = some rs)
    (hviable : (combinations op ls rs).isEmpty = false) (s : Checker) :
    ∃ j, s.journal.Calm j ∧ (evalBinaryOn id op lhs rhs lhsTy rhsTy).run s
      = some (foldedTy (op.values ls rs), { s with
          exprTypes := prune (prune s.exprTypes lhs ls (op.keptLeft ls rs)) rhs rs (op.keptRight ls rs)
          signatures := s.signatures.insert id (op.signature ls rs)
          journal := j }) := by
  obtain ⟨j₁, hj₁, hleft⟩ := run_dropReadings lhs ls (op.keptLeft ls rs) s
  obtain ⟨j₂, hj₂, hright⟩ := run_dropReadings rhs rs (op.keptRight ls rs)
    { s with exprTypes := prune s.exprTypes lhs ls (op.keptLeft ls rs), journal := j₁ }
  obtain ⟨j₃, hj₃, hfold⟩ := tells_foldBases op (combinations op ls rs)
    ((combinations op ls rs).map Combination.base).eraseDups { s with
      exprTypes := prune (prune s.exprTypes lhs ls (op.keptLeft ls rs)) rhs rs (op.keptRight ls rs)
      journal := j₂ }
  obtain ⟨j₄, hj₄, htype⟩ := tells_foldedType id op.symbol [lhsTy, rhsTy] (op.values ls rs) { s with
      exprTypes := prune (prune s.exprTypes lhs ls (op.keptLeft ls rs)) rhs rs (op.keptRight ls rs)
      signatures := s.signatures.insert id (op.signature ls rs)
      journal := j₃ }
  refine ⟨j₄, ((hj₁.trans hj₂).trans hj₃).trans hj₄, ?_⟩
  unfold evalBinaryOn
  simp only [hls, hrs, hviable, Bool.false_eq_true, if_false]
  exact (run_bind_some hleft).trans ((run_bind_some hright).trans ((run_bind_some hfold).trans htype))

theorem tells_evalBinaryOn_error (id : ExprId) (op : BinaryOp) (lhs rhs : ExprId) {lhsTy rhsTy : Ty}
    (h : ∀ ls rs, readingsOf? lhsTy = some ls → readingsOf? rhsTy = some rs →
      (combinations op ls rs).isEmpty = true) :
    Tells (evalBinaryOn id op lhs rhs lhsTy rhsTy) .error ∧ binaryTy op lhsTy rhsTy = .error := by
  unfold evalBinaryOn binaryTy
  cases hls : readingsOf? lhsTy with
  | none => exact ⟨.fail id rfl, rfl⟩
  | some ls =>
    cases hrs : readingsOf? rhsTy with
    | none => exact ⟨.fail id rfl, rfl⟩
    | some rs =>
      have hempty := h ls rs hls hrs
      refine ⟨?_, ?_⟩
      · simp only [hempty, if_true]
        exact .fail id rfl
      · dsimp only
        rw [BinaryOp.values, List.isEmpty_iff.mp hempty]
        rfl

/-- **What a unary operator does that is defined for some readings.** -/
theorem run_evalUnaryOn (id : ExprId) (op : UnaryOp) {ty : Ty} {rs : List Singleton}
    (hrs : readingsOf? ty = some rs) (happlicable : (op.applicable rs).isEmpty = false)
    (s : Checker) :
    ∃ j, s.journal.Calm j ∧ (evalUnaryOn id op ty).run s = some (foldedTy (op.values rs),
      { s with signatures := s.signatures.insert id (op.signature rs), journal := j }) := by
  obtain ⟨j, hj, htype⟩ := tells_foldedType id op.symbol [ty] (op.values rs)
    { s with signatures := s.signatures.insert id (op.signature rs) }
  refine ⟨j, hj, ?_⟩
  unfold UnaryOp.applicable at happlicable
  unfold evalUnaryOn
  simp only [hrs, Option.getD_some, happlicable, Bool.false_eq_true, if_false]
  exact htype

theorem tells_evalUnaryOn_error (id : ExprId) (op : UnaryOp) {ty : Ty}
    (h : ∀ rs, readingsOf? ty = some rs → (op.applicable rs).isEmpty = true) :
    Tells (evalUnaryOn id op ty) .error ∧ unaryTy op ty = .error := by
  unfold evalUnaryOn unaryTy
  cases hrs : readingsOf? ty with
  | none => exact ⟨.fail id rfl, rfl⟩
  | some rs =>
    have hempty := h rs hrs
    refine ⟨?_, ?_⟩
    · unfold UnaryOp.applicable at hempty
      simp only [Option.getD_some, hempty, if_true]
      exact .fail id rfl
    · dsimp only
      rw [UnaryOp.values, List.isEmpty_iff.mp hempty]
      rfl

end Checker

/-! ## Types that are held -/

/-- The tables hold the types of the parts of an expression, less the readings that an operator has
dropped, and the signature of an operator. -/
def Recorded (s : Checker) (id : ExprId) (types : ExprId → Ty) : Expr → Prop
  | .binary op lhs rhs => ∃ ls rs, readingsOf? (types lhs) = some ls ∧ readingsOf? (types rhs) = some rs
      ∧ s.exprTypes.get? lhs = some (.ofValues (op.keptLeft ls rs))
      ∧ s.exprTypes.get? rhs = some (.ofValues (op.keptRight ls rs))
      ∧ s.signatures.get? id = some (op.signature ls rs)
  | .unary op operand => ∃ rs, readingsOf? (types operand) = some rs
      ∧ s.exprTypes.get? operand = some (types operand)
      ∧ s.signatures.get? id = some (op.signature rs)
  | e => ∀ part ∈ e.children, s.exprTypes.get? part = some (types part)

theorem recorded_of_entries {s : Checker} {id : ExprId} {types : ExprId → Ty} {e : Expr}
    (hbinary : ∀ op lhs rhs, e ≠ .binary op lhs rhs) (hunary : ∀ op operand, e ≠ .unary op operand)
    (h : ∀ part ∈ e.children, s.exprTypes.get? part = some (types part)) : Recorded s id types e := by
  cases e with
  | binary op lhs rhs => exact absurd rfl (hbinary op lhs rhs)
  | unary op operand => exact absurd rfl (hunary op operand)
  | missing | literal | reference | list | record | group | unsupported => exact h

/-- A type is what evaluation gives for an expression, and what it leaves in the tables for the
parts is still there. -/
inductive Held (p : Program) (given : ConstId → Ty) (scope : ScopeId) (s : Checker) :
    Option Ty → ExprId → Ty → Prop where
  | intro {expected : Option Ty} {id : ExprId} {ty : Ty} (types : ExprId → Ty)
      (hty : ty = inferStep p given scope expected types (p.source.expr id))
      (parts : ∀ slot ∈ (p.source.expr id).slots,
        Held p given scope s (slot.expects expected) slot.part (types slot.part))
      (operand : ty.IsOperand)
      (recorded : ty.isError = false → Recorded s id types (p.source.expr id)) :
      Held p given scope s expected id ty

section

variable {p : Program} {given : ConstId → Ty} {scope : ScopeId} {s t : Checker}
variable {expected : Option Ty} {id : ExprId} {ty : Ty}

theorem Held.isOperand (h : Held p given scope s expected id ty) : ty.IsOperand := by
  cases h with
  | intro _ _ _ operand _ => exact operand

theorem Recorded.congr {types : ExprId → Ty} {e : Expr} (h : Recorded s id types e)
    (htypes : ∀ part ∈ e.children, t.exprTypes.get? part = s.exprTypes.get? part)
    (hsignature : t.signatures.get? id = s.signatures.get? id) : Recorded t id types e := by
  cases e with
  | binary op lhs rhs =>
    obtain ⟨ls, rs, hls, hrs, hlhs, hrhs, hsig⟩ := h
    refine ⟨ls, rs, hls, hrs, ?_, ?_, hsignature.trans hsig⟩
    · exact (htypes lhs List.mem_cons_self).trans hlhs
    · exact (htypes rhs (List.mem_cons_of_mem _ List.mem_cons_self)).trans hrhs
  | unary op operand =>
    obtain ⟨rs, hrs, hoperand, hsig⟩ := h
    exact ⟨rs, hrs, (htypes operand List.mem_cons_self).trans hoperand, hsignature.trans hsig⟩
  | list items => exact fun part hpart => (htypes part hpart).trans (h part hpart)
  | record fields => exact fun part hpart => (htypes part hpart).trans (h part hpart)
  | group inner => exact fun part hpart => (htypes part hpart).trans (h part hpart)
  | missing | literal | reference | unsupported => exact fun _ hpart => (by cases hpart)

/-- What is held stays so while nothing below the expression changes. -/
theorem Held.congr (h : Held p given scope s expected id ty)
    (htypes : ∀ e, Relation.TransGen p.source.Part id e → t.exprTypes.get? e = s.exprTypes.get? e)
    (hsignatures : ∀ e, p.source.Within id e → t.signatures.get? e = s.signatures.get? e) :
    Held p given scope t expected id ty := by
  induction h with
  | @intro expected id ty types hty _ operand recorded ih =>
    refine .intro types hty (fun slot hslot => ?_) operand fun herror => ?_
    · have hpart : p.source.Part id slot.part := Expr.part_mem_children hslot
      exact ih slot hslot (fun e he => htypes e (.head hpart he))
        fun e he => hsignatures e (.head hpart he)
    · exact (recorded herror).congr (fun part hpart => htypes part (.single hpart))
        (hsignatures id .refl)

/-- What is held stays so while something else is evaluated. -/
theorem Held.touches {inside : ExprId → Prop} (h : Held p given scope s expected id ty)
    (htouches : Touches inside s t) (hapart : ∀ e, p.source.Within id e → ¬ inside e) :
    Held p given scope t expected id ty :=
  h.congr (fun e he => htouches.types e (hapart e he.to_reflTransGen))
    fun e he => htouches.signatures e (hapart e he)

end

/-! ## Visiting the parts -/

/-- An expression can be evaluated: nothing in it has been, and the constants that it names are
resolved. -/
structure Ready (p : Program) (given : ConstId → Ty) (scope : ScopeId) (s : Checker) (id : ExprId) :
    Prop where
  fresh : ∀ e, p.source.Within id e → s.exprTypes.get? e = none
  named : ∀ e target, p.source.Within id e → p.source.referredConstant? scope e = some target →
    s.status.get? target = some (.resolved (given target))

/-- Evaluation gives a certain type for an expression, which is then held. -/
def Evaluates (p : Program) (given : ConstId → Ty) (scope : ScopeId) (eval : Evaluator)
    (expected : Option Ty) (id : ExprId) (ty : Ty) : Prop :=
  ∀ s, Ready p given scope s id → Ends (eval id ⟨expected, scope⟩) s fun result t =>
    result = ty ∧ Touches (p.source.Within id) s t ∧ Quiet s t ∧ t.exprTypes.get? id = some ty
      ∧ Held p given scope t expected id ty

section Visits

variable {p : Program} {given : ConstId → Ty} {scope : ScopeId} {s t u : Checker}

theorem Ready.part {id part : ExprId} (h : Ready p given scope s id) (hpart : p.source.Part id part) :
    Ready p given scope s part :=
  ⟨fun e he => h.fresh e (.head hpart he), fun e target he => h.named e target (.head hpart he)⟩

theorem Ready.touches {inside : ExprId → Prop} {id : ExprId} (h : Ready p given scope s id)
    (htouches : Touches inside s t) (hapart : ∀ e, p.source.Within id e → ¬ inside e) :
    Ready p given scope t id := by
  refine ⟨fun e he => ?_, fun e target he href => ?_⟩
  · rw [htouches.types e (hapart e he)]
    exact h.fresh e he
  · rw [htouches.status]
    exact h.named e target he href

variable (p given scope) in
/-- The walk of evaluation: parts that are ready are evaluated, and their types are held. -/
def visiting (expected : Option Ty) (types : ExprId → Ty) : Walk p.source Slot where
  part := Slot.part
  reach := fun slot => p.source.Within slot.part
  before := fun slot s => Ready p given scope s slot.part
  after := fun slot t => t.exprTypes.get? slot.part = some (types slot.part)
    ∧ Held p given scope t (slot.expects expected) slot.part (types slot.part)
  calm := True
  reach_within := fun _ _ h => h
  before_touches := fun _ _ _ _ h htouches hapart => h.touches htouches hapart
  after_touches := fun slot _ _ _ h htouches hapart =>
    ⟨(htouches.types _ (hapart slot.part .refl)).trans h.1, h.2.touches htouches hapart⟩

variable {expected : Option Ty} {types : ExprId → Ty} {eval : Evaluator}

theorem visits_eval {slot : Slot}
    (h : Evaluates p given scope eval (slot.expects expected) slot.part (types slot.part)) :
    (visiting p given scope expected types).Passes (eval slot.part ⟨slot.expects expected, scope⟩)
      [slot] (types slot.part) := by
  intro s hready
  refine (h s (hready slot List.mem_cons_self)).mono ?_
  rintro _ t ⟨rfl, htouches, hquiet, hentry, hheld⟩
  exact ⟨rfl, htouches.mono fun e he => ⟨slot, List.mem_cons_self, he⟩, fun _ => hquiet,
    List.forall_mem_singleton.mpr ⟨hentry, hheld⟩⟩

theorem visits_eval_bind {α : Type} {slot : Slot} {rest : List Slot} {f : Ty → CheckM α} {a : α}
    (h : Evaluates p given scope eval (slot.expects expected) slot.part (types slot.part))
    (hf : (visiting p given scope expected types).Passes (f (types slot.part)) rest a)
    (hapart : p.source.Apart ((slot :: rest).map Slot.part)) :
    (visiting p given scope expected types).Passes
      (eval slot.part ⟨slot.expects expected, scope⟩ >>= f) (slot :: rest) a :=
  (visits_eval h).bind hf rfl hapart

/-! ### Lists -/

theorem visits_evalItems {items : List ListItem}
    (heval : ∀ slot ∈ items.map ListItem.slot,
      Evaluates p given scope eval (slot.expects expected) slot.part (types slot.part))
    (hapart : p.source.Apart ((items.map ListItem.slot).map Slot.part)) :
    (visiting p given scope expected types).Passes (evalItems eval ⟨expected, scope⟩ items)
      (items.map ListItem.slot) (itemTys? types items) := by
  induction items with
  | nil => exact .tells (.pure _)
  | cons item items ih =>
    obtain ⟨hfirst, hrest⟩ := List.forall_mem_cons.mp heval
    have htail : p.source.Apart ((items.map ListItem.slot).map Slot.part) :=
      (List.pairwise_cons.mp hapart).2
    have hitems := ih hrest htail
    cases item with
    | member value =>
      refine visits_eval_bind hfirst (hitems.then_tells ?_ htail) hapart
      rw [itemTys?]
      exact .pure _
    | spread operand =>
      refine visits_eval_bind hfirst ?_ hapart
      refine (Walk.Passes.tells (tells_spreadMembers operand _)).bind ?_ (List.nil_append _).symm htail
      exact hitems.then_tells (.pure _) htail

theorem visits_evalList {id : ExprId} {items : List ListItem}
    (heval : ∀ slot ∈ items.map ListItem.slot,
      Evaluates p given scope eval (slot.expects expected) slot.part (types slot.part))
    (hapart : p.source.Apart ((items.map ListItem.slot).map Slot.part)) :
    (visiting p given scope expected types).Passes (evalList eval id items ⟨expected, scope⟩)
      (items.map ListItem.slot) (listTy types items) := by
  refine (visits_evalItems heval hapart).then_tells ?_ hapart
  unfold listTy
  cases itemTys? types items with
  | some members => exact .pure _
  | none => exact (Tells.note fun _ h => (by cases h)).bind (.pure _)

/-! ### Records -/

/-- The parts of a field that is not computed. -/
def RecordField.writtenSlots : RecordField → List Slot
  | .computed _ _ => []
  | field => field.slots

/-- The parts of a computed field. -/
def RecordField.computedSlots : RecordField → List Slot
  | .computed key value => [⟨key, false⟩, ⟨value, true⟩]
  | _ => []

theorem visits_placeWritten {field : RecordField} (placed : Placement)
    (heval : ∀ slot ∈ field.writtenSlots,
      Evaluates p given scope eval (slot.expects expected) slot.part (types slot.part))
    (hapart : p.source.Apart (field.writtenSlots.map Slot.part)) :
    (visiting p given scope expected types).Passes (placeWritten p eval ⟨expected, scope⟩ field placed)
      field.writtenSlots (placed.written p.source types field) := by
  cases field with
  | named name value =>
    exact (visits_eval (heval _ List.mem_cons_self)).then_tells (tells_putField _ _ _ _) hapart
  | reference value =>
    refine (visits_eval (heval _ List.mem_cons_self)).then_tells ?_ hapart
    rw [Placement.written]
    cases p.source.fieldName? value with
    | some name => exact tells_putField _ _ _ _
    | none => exact .pure _
  | spread operand =>
    exact (visits_eval (heval _ List.mem_cons_self)).then_tells (tells_placeSpread _ _ _) hapart
  | computed key value => exact .tells (.pure _)

theorem visits_placeComputed {field : RecordField} (placed : Placement)
    (heval : ∀ slot ∈ field.computedSlots,
      Evaluates p given scope eval (slot.expects expected) slot.part (types slot.part))
    (hapart : p.source.Apart (field.computedSlots.map Slot.part)) :
    (visiting p given scope expected types).Passes (placeComputed eval ⟨expected, scope⟩ field placed)
      field.computedSlots (placed.computed types field) := by
  cases field with
  | computed key value =>
    obtain ⟨hkey, hvalue⟩ := List.forall_mem_cons.mp heval
    refine visits_eval_bind hkey ?_ hapart
    refine (visits_eval (hvalue _ List.mem_cons_self)).then_tells ?_ (List.pairwise_cons.mp hapart).2
    rw [Placement.computed]
    dsimp only
    by_cases herror : (types value).isError = true
    · rw [if_pos herror, if_pos (by rw [herror, Bool.or_true])]
      exact .pure _
    · rw [if_neg herror]
      cases hname : keyOf? (types key) with
      | some name =>
        -- only a value has a name, so the key is no error either
        have hkey : (types key).isError = false := by
          cases hty : types key <;> first | rfl | (rw [hty] at hname; cases hname)
        rw [if_neg (by simp [hkey, herror])]
        exact .pure _
      | none =>
        split
        · exact .pure _
        · exact (Tells.report key rfl).bind (.pure _)
  | named name value => exact .tells (.pure _)
  | reference value => exact .tells (.pure _)
  | spread operand => exact .tells (.pure _)

theorem visits_placeEach {place : RecordField → Placement → CheckM Placement}
    {slotsOf : RecordField → List Slot} {f : Placement → RecordField → Placement}
    {fields : List RecordField}
    (hplace : ∀ field ∈ fields, ∀ placed, p.source.Apart ((slotsOf field).map Slot.part) →
      (visiting p given scope expected types).Passes (place field placed) (slotsOf field) (f placed field))
    (hapart : p.source.Apart ((fields.flatMap slotsOf).map Slot.part)) (placed : Placement) :
    (visiting p given scope expected types).Passes (placeEach place fields placed) (fields.flatMap slotsOf)
      (fields.foldl f placed) := by
  induction fields generalizing placed with
  | nil => exact .tells (.pure _)
  | cons field fields ih =>
    obtain ⟨hfirst, hrest⟩ := List.forall_mem_cons.mp hplace
    rw [List.flatMap_cons] at hapart ⊢
    obtain ⟨hfield, hfields, -⟩ := List.pairwise_append.mp (List.map_append ▸ hapart)
    exact (hfirst placed hfield).bind (ih hrest hfields _) rfl hapart

/-- Computed fields are visited last, which are the same parts in another order. -/
theorem perm_slots (fields : List RecordField) :
    (fields.flatMap RecordField.writtenSlots ++ fields.flatMap RecordField.computedSlots).Perm
      (fields.flatMap RecordField.slots) := by
  refine (List.flatMap_append_perm fields _ _).trans (List.Perm.of_eq ?_)
  exact congrArg (List.flatMap · fields) (funext fun field => by cases field <;> rfl)

/-- All parts of a record are visited: first those of the other fields, then those of computed ones.
-/
theorem visits_evalRecord {fields : List RecordField}
    (heval : ∀ slot ∈ fields.flatMap RecordField.slots,
      Evaluates p given scope eval (slot.expects expected) slot.part (types slot.part))
    (hapart : p.source.Apart ((fields.flatMap RecordField.slots).map Slot.part)) :
    (visiting p given scope expected types).Passes (evalRecord p eval fields ⟨expected, scope⟩)
      (fields.flatMap RecordField.writtenSlots ++ fields.flatMap RecordField.computedSlots)
      (recordTy p.source types fields) := by
  -- written fields come before computed ones, which changes nothing but the order
  have hperm := perm_slots fields
  have hboth : p.source.Apart ((fields.flatMap RecordField.writtenSlots
      ++ fields.flatMap RecordField.computedSlots).map Slot.part) :=
    ((hperm.map Slot.part).pairwise_iff fun {a b} hab e hb ha => hab e ha hb).mpr hapart
  obtain ⟨hwritten, hcomputed, -⟩ := List.pairwise_append.mp (List.map_append ▸ hboth)
  have hslot : ∀ slot, slot ∈ fields.flatMap RecordField.writtenSlots
      ++ fields.flatMap RecordField.computedSlots →
      Evaluates p given scope eval (slot.expects expected) slot.part (types slot.part) :=
    fun slot hslot => heval slot (hperm.mem_iff.mp hslot)
  refine (visits_placeEach (f := Placement.written p.source types) (fun field hfield placed hsep =>
    visits_placeWritten placed (fun slot h => hslot slot (List.mem_append_left _
      (List.mem_flatMap.mpr ⟨field, hfield, h⟩))) hsep) hwritten _).bind ?_ rfl hboth
  refine (visits_placeEach (f := Placement.computed types) (fun field hfield placed hsep =>
    visits_placeComputed placed (fun slot h => hslot slot (List.mem_append_right _
      (List.mem_flatMap.mpr ⟨field, hfield, h⟩))) hsep) hcomputed _).then_tells ?_ hcomputed
  exact .pure _

end Visits

/-! ## All expressions -/

/-- What the names in an expression stand for are operands. -/
structure Sources (p : Program) (given : ConstId → Ty) (scope : ScopeId) (id : ExprId) : Prop where
  named : ∀ e name, p.source.Within id e → p.source.expr e = .reference none name →
    (nameTy p given scope name).IsOperand
  imported : ∀ e source name, p.source.Within id e → p.source.expr e = .reference (some source) name →
    (importedTy p source name).IsOperand

theorem Sources.part {p : Program} {given : ConstId → Ty} {scope : ScopeId} {id part : ExprId}
    (h : Sources p given scope id) (hpart : p.source.Part id part) : Sources p given scope part :=
  ⟨fun e name he => h.named e name (.head hpart he),
    fun e source name he => h.imported e source name (.head hpart he)⟩

section Whole

variable {p : Program} {given : ConstId → Ty} {scope : ScopeId} {s t : Checker}
variable {expected : Option Ty} {types : ExprId → Ty} {id : ExprId}

variable (p given scope) in
/-- An expression has been evaluated, though its own type may not be in the table yet. -/
structure Evaluated (expected : Option Ty) (id : ExprId) (ty : Ty) (s t : Checker) : Prop where
  touches : Touches (p.source.Within id) s t
  quiet : Quiet s t
  held : Held p given scope t expected id ty

/-- The type of an expression is an operand, since the types of its parts are. -/
theorem isOperand_of_held (hsources : Sources p given scope id)
    (hheld : ∀ slot ∈ (p.source.expr id).slots,
      Held p given scope t (slot.expects expected) slot.part (types slot.part)) :
    (inferStep p given scope expected types (p.source.expr id)).IsOperand := by
  refine isOperand_inferStep (fun name hexpr => hsources.named id name .refl hexpr)
    (fun source name hexpr => hsources.imported id source name .refl hexpr) fun part hpart => ?_
  rw [← Expr.map_part_slots] at hpart
  obtain ⟨slot, hslot, rfl⟩ := List.mem_map.mp hpart
  exact (hheld slot hslot).isOperand

/-- Once all parts are visited, and what an operator leaves behind is recorded, the expression is
evaluated. -/
theorem evaluated_of_passed {slots : List Slot} (hsources : Sources p given scope id)
    (h : (visiting p given scope expected types).Passed slots s t)
    (hslots : ∀ slot, slot ∈ slots ↔ slot ∈ (p.source.expr id).slots)
    (hrecorded : (inferStep p given scope expected types (p.source.expr id)).isError = false →
      Recorded t id types (p.source.expr id)) :
    Evaluated p given scope expected id (inferStep p given scope expected types (p.source.expr id))
      s t := by
  have hheld := fun slot hslot => (h.after slot ((hslots slot).mpr hslot)).2
  exact ⟨h.touches_whole fun slot hslot => Expr.part_mem_children ((hslots slot).mp hslot),
    h.quiet trivial,
    .intro types rfl hheld (isOperand_of_held hsources hheld) hrecorded⟩

/-- Without a type there is nothing to record. -/
theorem evaluated_of_error {slots : List Slot} (hsources : Sources p given scope id)
    (h : (visiting p given scope expected types).Passed slots s t)
    (hslots : ∀ slot, slot ∈ slots ↔ slot ∈ (p.source.expr id).slots)
    (hnone : inferStep p given scope expected types (p.source.expr id) = .error) :
    Evaluated p given scope expected id .error s t := by
  have hevaluated := evaluated_of_passed hsources h hslots fun herror => by
    rw [hnone] at herror
    cases herror
  rw [hnone] at hevaluated
  exact hevaluated

/-- The entries of all parts are there after a visit. -/
theorem entry_of_passed {slots : List Slot}
    (h : (visiting p given scope expected types).Passed slots s t)
    (hslots : ∀ slot, slot ∈ slots ↔ slot ∈ (p.source.expr id).slots) :
    ∀ part ∈ (p.source.expr id).children, t.exprTypes.get? part = some (types part) := by
  intro part hpart
  rw [← Expr.map_part_slots] at hpart
  obtain ⟨slot, hslot, rfl⟩ := List.mem_map.mp hpart
  exact (h.after slot ((hslots slot).mpr hslot)).1

theorem Evaluated.calm {ty : Ty} (h : Evaluated p given scope expected id ty s t) {j : Journal}
    (hj : t.journal.Calm j) : Evaluated p given scope expected id ty s { t with journal := j } :=
  ⟨h.touches.trans (touches_journal _ t j), h.quiet.trans hj.violations,
    h.held.congr (fun _ _ => rfl) fun _ _ => rfl⟩

variable {eval : Evaluator}

/-- An expression without parts is evaluated by a computation that changes nothing but the journal. -/
theorem ends_leaf {m : CheckM Ty} {e : Expr} {j : Journal} (hexpr : p.source.expr id = e)
    (hsources : Sources p given scope id) (hslots : e.slots = [])
    (hm : m.run s = some (inferStep p given scope expected types e, { s with journal := j }))
    (hj : s.journal.Calm j) :
    Ends m s fun result t => result = inferStep p given scope expected types e
      ∧ Evaluated p given scope expected id result s t := by
  subst hexpr
  have hheld : ∀ slot ∈ (p.source.expr id).slots, Held p given scope { s with journal := j }
      (slot.expects expected) slot.part (types slot.part) := by
    rw [hslots]
    exact fun _ hslot => (by cases hslot)
  have hchildren : (p.source.expr id).children = [] := by rw [← Expr.map_part_slots, hslots]; rfl
  refine ⟨_, _, hm, rfl, touches_journal _ s j, hj.violations,
    .intro types rfl hheld (isOperand_of_held hsources hheld) fun _ => ?_⟩
  refine recorded_of_entries (fun op lhs rhs heq => ?_) (fun op operand heq => ?_) ?_
  · rw [heq] at hslots
    cases hslots
  · rw [heq] at hslots
    cases hslots
  · rw [hchildren]
    exact fun _ hpart => (by cases hpart)

/-- An expression other than an operator is evaluated by visiting its parts. -/
theorem ends_visits {slots : List Slot} {m : CheckM Ty} {e : Expr} (hexpr : p.source.expr id = e)
    (hsources : Sources p given scope id) (hready : Ready p given scope s id)
    (hslots : ∀ slot, slot ∈ slots ↔ slot ∈ e.slots)
    (hbinary : ∀ op lhs rhs, e ≠ .binary op lhs rhs) (hunary : ∀ op operand, e ≠ .unary op operand)
    (hm : (visiting p given scope expected types).Passes m slots (inferStep p given scope expected types e)) :
    Ends m s fun result t => result = inferStep p given scope expected types e
      ∧ Evaluated p given scope expected id result s t := by
  subst hexpr
  refine (hm s fun slot hslot =>
    hready.part (Expr.part_mem_children ((hslots slot).mp hslot))).mono ?_
  rintro _ t ⟨rfl, hvisited⟩
  exact ⟨rfl, evaluated_of_passed hsources hvisited hslots fun _ =>
    recorded_of_entries hbinary hunary (entry_of_passed hvisited hslots)⟩

/-- The state after a binary operator: readings are dropped from the operands, and the operator has
its signature. -/
def Checker.combined (s : Checker) (id : ExprId) (op : BinaryOp) (lhs rhs : ExprId)
    (ls rs : List Singleton) (j : Journal) : Checker :=
  { s with
    exprTypes := prune (prune s.exprTypes lhs ls (op.keptLeft ls rs)) rhs rs (op.keptRight ls rs)
    signatures := s.signatures.insert id (op.signature ls rs)
    journal := j }

/-- The types of the operands are still held after the operator is combined with them: below the
operands nothing has changed. -/
theorem Held.combined {op : BinaryOp} {lhs rhs part : ExprId} {ty : Ty} {ls rs : List Singleton}
    {j : Journal} (htree : p.source.Tree id) (hlhs : p.source.Part id lhs)
    (hrhs : p.source.Part id rhs) (hpart : p.source.Part id part)
    (h : Held p given scope t expected part ty) :
    Held p given scope (t.combined id op lhs rhs ls rs j) expected part ty := by
  refine h.congr (fun e he => ?_) fun e he => ?_
  · have hl : e ≠ lhs := fun heq => htree.not_below_part hpart hlhs (heq ▸ he)
    have hr : e ≠ rhs := fun heq => htree.not_below_part hpart hrhs (heq ▸ he)
    exact (get?_prune_ne _ hr _ _).trans (get?_prune_ne _ hl _ _)
  · have hid : e ≠ id := fun heq => htree.not_within_part hpart (heq ▸ he)
    exact (Table.get?_insert _ _ _ _).trans (if_neg hid)

theorem touches_combined {op : BinaryOp} {lhs rhs : ExprId} {ls rs : List Singleton} {j : Journal}
    (hlhs : p.source.Part id lhs) (hrhs : p.source.Part id rhs) :
    Touches (p.source.Within id) t (t.combined id op lhs rhs ls rs j) := by
  refine ⟨rfl, fun e he => ?_, fun e he => ?_⟩
  · have hl : e ≠ lhs := fun heq => he (heq ▸ .single hlhs)
    have hr : e ≠ rhs := fun heq => he (heq ▸ .single hrhs)
    exact (get?_prune_ne _ hr _ _).trans (get?_prune_ne _ hl _ _)
  · have hid : e ≠ id := fun heq => he (heq ▸ .refl)
    exact (Table.get?_insert _ _ _ _).trans (if_neg hid)

/-- What is kept of the operands is in their entries, and the signature is there. -/
theorem recorded_combined {op : BinaryOp} {lhs rhs : ExprId} {ls rs : List Singleton} {j : Journal}
    (hexpr : p.source.expr id = .binary op lhs rhs) (htree : p.source.Tree id)
    (hlhs : (types lhs).IsOperand) (hrhs : (types rhs).IsOperand)
    (hlhsEntry : t.exprTypes.get? lhs = some (types lhs))
    (hrhsEntry : t.exprTypes.get? rhs = some (types rhs))
    (hls : readingsOf? (types lhs) = some ls) (hrs : readingsOf? (types rhs) = some rs)
    (hne : (combinations op ls rs).isEmpty = false) :
    Recorded (t.combined id op lhs rhs ls rs j) id types (p.source.expr id) := by
  -- one operand is pruned after the other, so it matters that they are not the same
  have hdiffer : lhs ≠ rhs := by
    have hnodup := htree.nodup id .refl
    rw [hexpr] at hnodup
    exact fun heq => (List.nodup_cons.mp hnodup).1 (List.mem_singleton.mpr heq)
  obtain ⟨hlsChoice, -, hlsTy⟩ := hlhs.readings hls
  obtain ⟨hrsChoice, -, hrsTy⟩ := hrhs.readings hrs
  obtain ⟨hleft, hright⟩ := BinaryOp.kept_ne_nil hne
  rw [hexpr]
  refine ⟨ls, rs, hls, hrs, ?_, ?_, Table.get?_insert_self _ _ _⟩
  · refine (get?_prune_ne _ hdiffer _ _).trans ?_
    exact get?_prune_self hlsChoice List.filter_sublist hleft (hlsTy ▸ hlhsEntry)
  · refine get?_prune_self hrsChoice List.filter_sublist hright ?_
    exact (get?_prune_ne _ (Ne.symm hdiffer) _ _).trans (hrsTy ▸ hrhsEntry)

/-- **The readings of two operands are combined.** -/
theorem ends_evalBinaryOn {op : BinaryOp} {lhs rhs : ExprId}
    (hexpr : p.source.expr id = .binary op lhs rhs) (htree : p.source.Tree id)
    (hsources : Sources p given scope id)
    (hvisited : (visiting p given scope expected types).Passed [⟨lhs, true⟩, ⟨rhs, true⟩] s t) :
    Ends (evalBinaryOn id op lhs rhs (types lhs) (types rhs)) t fun result u =>
      result = inferStep p given scope expected types (p.source.expr id)
        ∧ Evaluated p given scope expected id result s u := by
  have hslots : (p.source.expr id).slots = [⟨lhs, true⟩, ⟨rhs, true⟩] := by rw [hexpr]; rfl
  have hty : inferStep p given scope expected types (p.source.expr id)
      = binaryTy op (types lhs) (types rhs) := by rw [hexpr]; rfl
  obtain ⟨⟨hlhsEntry, hlhsHeld⟩, hright⟩ := List.forall_mem_cons.mp hvisited.after
  obtain ⟨hrhsEntry, hrhsHeld⟩ := List.forall_mem_singleton.mp hright
  by_cases hviable : ∃ ls rs, readingsOf? (types lhs) = some ls ∧ readingsOf? (types rhs) = some rs
      ∧ (combinations op ls rs).isEmpty = false
  · obtain ⟨ls, rs, hls, hrs, hne⟩ := hviable
    obtain ⟨j, hj, hrun⟩ := run_evalBinaryOn id lhs rhs hls hrs hne t
    refine ⟨_, t.combined id op lhs rhs ls rs j, hrun, ?_⟩
    have hfolded : foldedTy (op.values ls rs)
        = inferStep p given scope expected types (p.source.expr id) := by
      rw [hty, binaryTy, hls, hrs]
    rw [hfolded]
    have hlhs : p.source.Part id lhs := (Module.part_binary_iff hexpr).mpr (Or.inl rfl)
    have hrhs : p.source.Part id rhs := (Module.part_binary_iff hexpr).mpr (Or.inr rfl)
    have hparts : ∀ slot ∈ (p.source.expr id).slots,
        Held p given scope (t.combined id op lhs rhs ls rs j) (slot.expects expected) slot.part
          (types slot.part) := by
      rw [hslots]
      exact List.forall_mem_cons.mpr ⟨hlhsHeld.combined htree hlhs hrhs hlhs,
        List.forall_mem_singleton.mpr (hrhsHeld.combined htree hlhs hrhs hrhs)⟩
    refine ⟨rfl, ?_, (hvisited.quiet trivial).trans hj.violations,
      .intro types rfl hparts (isOperand_of_held hsources hparts) fun _ => ?_⟩
    · exact (hvisited.touches_whole fun slot hslot => Expr.part_mem_children (hslots ▸ hslot)).trans
        (touches_combined hlhs hrhs)
    · exact recorded_combined hexpr htree hlhsHeld.isOperand hrhsHeld.isOperand hlhsEntry hrhsEntry
        hls hrs hne
  · have hempty : ∀ ls rs, readingsOf? (types lhs) = some ls → readingsOf? (types rhs) = some rs →
        (combinations op ls rs).isEmpty = true := by
      intro ls rs hls hrs
      by_contra hne
      exact hviable ⟨ls, rs, hls, hrs, by simpa using hne⟩
    obtain ⟨htells, hnone⟩ := tells_evalBinaryOn_error id op lhs rhs hempty
    have hevaluated := evaluated_of_error hsources hvisited (fun slot => by rw [hslots])
      (hty.trans hnone)
    rw [hty, hnone]
    exact htells.ends fun j hj => ⟨rfl, hevaluated.calm hj⟩

theorem ends_evalBinary {op : BinaryOp} {lhs rhs : ExprId}
    (hexpr : p.source.expr id = .binary op lhs rhs) (htree : p.source.Tree id)
    (hsources : Sources p given scope id) (hready : Ready p given scope s id)
    (heval : ∀ slot ∈ (p.source.expr id).slots,
      Evaluates p given scope eval (slot.expects expected) slot.part (types slot.part)) :
    Ends (evalBinary eval id op lhs rhs ⟨expected, scope⟩) s fun result t =>
      result = inferStep p given scope expected types (p.source.expr id)
        ∧ Evaluated p given scope expected id result s t := by
  have hslots : (p.source.expr id).slots = [⟨lhs, true⟩, ⟨rhs, true⟩] := by rw [hexpr]; rfl
  have hapart := htree.parts_apart
  rw [← Expr.map_part_slots] at hapart
  rw [hslots] at heval hapart
  obtain ⟨hevalLhs, hevalRhs⟩ := List.forall_mem_cons.mp heval
  -- the operands are visited before anything is made of them
  have hboth : (visiting p given scope expected types).Passes
      (do
        let lhsTy ← eval lhs ⟨expected, scope⟩
        let rhsTy ← eval rhs ⟨expected, scope⟩
        pure (lhsTy, rhsTy)) [⟨lhs, true⟩, ⟨rhs, true⟩] (types lhs, types rhs) := by
    refine visits_eval_bind hevalLhs ?_ hapart
    exact visits_eval_bind (hevalRhs _ List.mem_cons_self) (.tells (.pure _))
      (List.pairwise_cons.mp hapart).2
  have hsplit : evalBinary eval id op lhs rhs ⟨expected, scope⟩ = (do
      let lhsTy ← eval lhs ⟨expected, scope⟩
      let rhsTy ← eval rhs ⟨expected, scope⟩
      pure (lhsTy, rhsTy)) >>= fun tys =>
        if tys.1.isError || tys.2.isError then pure .error
        else evalBinaryOn id op lhs rhs tys.1 tys.2 := by
    simp only [evalBinary, bind_assoc, pure_bind]
  rw [hsplit]
  refine (hboth s fun slot hslot => hready.part (Expr.part_mem_children (hslots ▸ hslot))).bind ?_
  rintro _ t ⟨rfl, hvisited⟩
  dsimp only
  by_cases herror : ((types lhs).isError || (types rhs).isError) = true
  · rw [if_pos herror]
    have hnone : inferStep p given scope expected types (p.source.expr id) = .error := by
      rw [hexpr, inferStep]
      rcases Bool.or_eq_true_iff.mp herror with h | h
      · rw [Ty.isError_iff.mp h]
        rfl
      · rw [Ty.isError_iff.mp h, binaryTy]
        cases readingsOf? (types lhs) <;> rfl
    rw [hnone]
    exact .pure ⟨rfl, evaluated_of_error hsources hvisited (fun slot => by rw [hslots]) hnone⟩
  · rw [if_neg herror]
    exact ends_evalBinaryOn hexpr htree hsources hvisited

/-- **The readings of an operand are mapped.** -/
theorem ends_evalUnaryOn {op : UnaryOp} {operand : ExprId}
    (hexpr : p.source.expr id = .unary op operand) (htree : p.source.Tree id)
    (hsources : Sources p given scope id)
    (hvisited : (visiting p given scope expected types).Passed [⟨operand, true⟩] s t) :
    Ends (evalUnaryOn id op (types operand)) t fun result u =>
      result = inferStep p given scope expected types (p.source.expr id)
        ∧ Evaluated p given scope expected id result s u := by
  have hslots : (p.source.expr id).slots = [⟨operand, true⟩] := by rw [hexpr]; rfl
  have hty : inferStep p given scope expected types (p.source.expr id)
      = unaryTy op (types operand) := by rw [hexpr]; rfl
  obtain ⟨hentry, hheld⟩ := List.forall_mem_singleton.mp hvisited.after
  by_cases hdefined : ∃ rs, readingsOf? (types operand) = some rs ∧ (op.applicable rs).isEmpty = false
  · obtain ⟨rs, hrs, hne⟩ := hdefined
    obtain ⟨j, hj, hrun⟩ := run_evalUnaryOn id op hrs hne t
    have hfolded : foldedTy (op.values rs) = inferStep p given scope expected types (p.source.expr id) := by
      rw [hty, unaryTy, hrs]
    rw [hfolded] at hrun
    have hparts : ∀ slot ∈ (p.source.expr id).slots, Held p given scope
        { t with signatures := t.signatures.insert id (op.signature rs), journal := j }
        (slot.expects expected) slot.part (types slot.part) := by
      rw [hslots]
      refine List.forall_mem_singleton.mpr (hheld.congr (fun _ _ => rfl) fun e he => ?_)
      have hid : e ≠ id := fun heq =>
        htree.not_within_part ((Module.part_unary_iff hexpr).mpr rfl) (heq ▸ he)
      exact (Table.get?_insert _ _ _ _).trans (if_neg hid)
    refine ⟨_, _, hrun, rfl, ?_, (hvisited.quiet trivial).trans hj.violations,
      .intro types rfl hparts (isOperand_of_held hsources hparts) fun _ => ?_⟩
    · have hsignature : Touches (p.source.Within id) t
          { t with signatures := t.signatures.insert id (op.signature rs) } :=
        touches_setSignature .refl t _
      exact (hvisited.touches_whole fun slot hslot => Expr.part_mem_children (hslots ▸ hslot)).trans
        (hsignature.trans (touches_journal _ _ j))
    · rw [hexpr]
      exact ⟨rs, hrs, hentry, Table.get?_insert_self _ _ _⟩
  · have hempty : ∀ rs, readingsOf? (types operand) = some rs →
        (op.applicable rs).isEmpty = true := by
      intro rs hrs
      by_contra hne
      exact hdefined ⟨rs, hrs, by simpa using hne⟩
    obtain ⟨htells, hnone⟩ := tells_evalUnaryOn_error id op hempty
    have hevaluated := evaluated_of_error hsources hvisited (fun slot => by rw [hslots])
      (hty.trans hnone)
    rw [hty, hnone]
    exact htells.ends fun j hj => ⟨rfl, hevaluated.calm hj⟩

theorem ends_evalUnary {op : UnaryOp} {operand : ExprId}
    (hexpr : p.source.expr id = .unary op operand) (htree : p.source.Tree id)
    (hsources : Sources p given scope id) (hready : Ready p given scope s id)
    (heval : ∀ slot ∈ (p.source.expr id).slots,
      Evaluates p given scope eval (slot.expects expected) slot.part (types slot.part)) :
    Ends (evalUnary eval id op operand ⟨expected, scope⟩) s fun result t =>
      result = inferStep p given scope expected types (p.source.expr id)
        ∧ Evaluated p given scope expected id result s t := by
  have hslots : (p.source.expr id).slots = [⟨operand, true⟩] := by rw [hexpr]; rfl
  rw [hslots] at heval
  refine (visits_eval (heval ⟨operand, true⟩ List.mem_cons_self) s fun slot hslot =>
    hready.part (Expr.part_mem_children (hslots ▸ hslot))).bind ?_
  rintro _ t ⟨rfl, hvisited⟩
  dsimp only
  by_cases herror : (types operand).isError = true
  · rw [if_pos herror]
    have hnone : inferStep p given scope expected types (p.source.expr id) = .error := by
      rw [hexpr, inferStep, Ty.isError_iff.mp herror]
      rfl
    rw [hnone]
    exact .pure ⟨rfl, evaluated_of_error hsources hvisited (fun slot => by rw [hslots]) hnone⟩
  · rw [if_neg herror]
    exact ends_evalUnaryOn hexpr htree hsources hvisited

theorem ends_evalName {refer : Referrer} {name : String}
    (hexpr : p.source.expr id = .reference none name) (hsources : Sources p given scope id)
    (hrefer : ∀ target, p.source.referredConstant? scope id = some target →
      (refer id target).run s = some (given target, s)) :
    Ends (evalName p refer id name scope) s fun result t =>
      result = inferStep p given scope expected types (.reference none name)
        ∧ Evaluated p given scope expected id result s t := by
  have htells : ∀ m : CheckM Ty, Tells m (nameTy p given scope name) →
      Ends m s fun result t =>
        result = inferStep p given scope expected types (.reference none name)
          ∧ Evaluated p given scope expected id result s t := by
    intro m hm
    obtain ⟨j, hj, hrun⟩ := hm s
    exact ends_leaf hexpr hsources rfl hrun hj
  unfold evalName
  unfold nameTy at htells
  cases hlookup : p.source.lookup scope name with
  | bound binding =>
    rw [hlookup] at htells
    cases binding with
    | constant target =>
      have href : p.source.referredConstant? scope id = some target := by
        simp only [Module.referredConstant?, hexpr, hlookup]
      refine ends_leaf hexpr hsources rfl ((hrefer target href).trans ?_) (.refl _)
      rw [inferStep, nameTy, hlookup]
    | variableName => exact htells _ (.fail id rfl)
    | functionName => exact htells _ (.fail id rfl)
  | wildcard =>
    rw [hlookup] at htells
    exact htells _ (.pure _)
  | notFound =>
    rw [hlookup] at htells
    exact htells _ (.fail id rfl)

/-- **An expression that has not been evaluated is evaluated**, if its parts can be. -/
theorem ends_evalFresh {refer : Referrer} (htree : p.source.Tree id)
    (hsources : Sources p given scope id) (hready : Ready p given scope s id)
    (hrefer : ∀ target, p.source.referredConstant? scope id = some target →
      (refer id target).run s = some (given target, s))
    (heval : ∀ slot ∈ (p.source.expr id).slots,
      Evaluates p given scope eval (slot.expects expected) slot.part (types slot.part)) :
    Ends (evalFresh p refer eval id ⟨expected, scope⟩) s fun result t =>
      result = inferStep p given scope expected types (p.source.expr id)
        ∧ Evaluated p given scope expected id result s t := by
  have hapart := htree.parts_apart
  rw [← Expr.map_part_slots] at hapart
  unfold evalFresh
  cases hexpr : p.source.expr id with
  | missing => exact ends_leaf hexpr hsources rfl rfl (.refl _)
  | literal literal =>
    obtain ⟨j, hj, hrun⟩ := tells_evalLiteral p id literal expected s
    exact ends_leaf hexpr hsources rfl hrun hj
  | reference source name =>
    cases source with
    | none => exact ends_evalName hexpr hsources hrefer
    | some source =>
      obtain ⟨j, hj, hrun⟩ := tells_evalImported p id source name s
      exact ends_leaf hexpr hsources rfl hrun hj
  | list items =>
    rw [hexpr] at heval hapart
    exact ends_visits hexpr hsources hready (fun _ => .rfl) (fun _ _ _ h => (by cases h))
      (fun _ _ h => (by cases h)) (visits_evalList heval hapart)
  | record fields =>
    rw [hexpr] at heval hapart
    exact ends_visits hexpr hsources hready (fun _ => (perm_slots fields).mem_iff)
      (fun _ _ _ h => (by cases h)) (fun _ _ h => (by cases h)) (visits_evalRecord heval hapart)
  | binary op lhs rhs =>
    have hends := ends_evalBinary hexpr htree hsources hready heval
    rw [hexpr] at hends
    exact hends
  | unary op operand =>
    have hends := ends_evalUnary hexpr htree hsources hready heval
    rw [hexpr] at hends
    exact hends
  | group inner =>
    rw [hexpr] at heval
    exact ends_visits hexpr hsources hready (fun _ => .rfl) (fun _ _ _ h => (by cases h))
      (fun _ _ h => (by cases h)) (visits_eval (heval ⟨inner, true⟩ List.mem_cons_self))
  | unsupported form =>
    obtain ⟨j, hj, hrun⟩ := Tells.fail id (show (Problem.unsupported form).isLocal = true from rfl) s
    exact ends_leaf hexpr hsources rfl hrun hj

/-- Its type is then kept. -/
theorem evaluates_evalStep {refer : Referrer} (htree : p.source.Tree id)
    (hsources : Sources p given scope id)
    (hrefer : ∀ s target, Ready p given scope s id → p.source.referredConstant? scope id = some target →
      (refer id target).run s = some (given target, s))
    (heval : ∀ slot ∈ (p.source.expr id).slots,
      Evaluates p given scope eval (slot.expects expected) slot.part (types slot.part)) :
    Evaluates p given scope (evalStep p refer eval) expected id
      (inferStep p given scope expected types (p.source.expr id)) := by
  intro s hready
  unfold evalStep
  refine Ends.bind (Ends.typeOf? (Q := fun result t => result = none ∧ t = s)
    ⟨hready.fresh id .refl, rfl⟩) ?_
  rintro _ _ ⟨rfl, rfl⟩
  refine (ends_evalFresh htree hsources hready (fun target => hrefer _ target hready) heval).bind ?_
  rintro ty t ⟨rfl, hevaluated⟩
  refine ⟨_, _, rfl, rfl, hevaluated.touches.trans (touches_setType .refl t _), hevaluated.quiet,
    Table.get?_insert_self _ _ _, hevaluated.held.congr (fun e he => ?_) fun _ _ => rfl⟩
  -- the new entry is not one of those below the expression
  have hne : e ≠ id := fun heq => htree.founded id .refl (heq ▸ he)
  exact (Table.get?_insert _ _ _ _).trans (if_neg hne)

end Whole

/-- If there is something for each slot, it can be named by the part. -/
theorem exists_types {Q : Slot → Ty → Prop} {slots : List Slot} (hnodup : (slots.map Slot.part).Nodup)
    (h : ∀ slot ∈ slots, ∃ ty, Q slot ty) :
    ∃ types : ExprId → Ty, ∀ slot ∈ slots, Q slot (types slot.part) := by
  induction slots with
  | nil => exact ⟨fun _ => .error, fun _ hslot => (by cases hslot)⟩
  | cons slot slots ih =>
    obtain ⟨hfirst, hrest⟩ := List.forall_mem_cons.mp h
    obtain ⟨hnew, hnodup⟩ := List.nodup_cons.mp hnodup
    obtain ⟨ty, hty⟩ := hfirst
    obtain ⟨types, htypes⟩ := ih hnodup hrest
    refine ⟨fun e => if e = slot.part then ty else types e, List.forall_mem_cons.mpr ⟨?_, ?_⟩⟩
    · dsimp only
      rw [if_pos rfl]
      exact hty
    · intro other hother
      have hne : other.part ≠ slot.part := fun heq => hnew (heq ▸ List.mem_map_of_mem hother)
      dsimp only
      rw [if_neg hne]
      exact htypes other hother

/-- **A tree is evaluated**, if the bound on the nesting is above its height. -/
theorem exists_evaluates {p : Program} {given : ConstId → Ty} {scope : ScopeId} {n : Nat}
    {id : ExprId} (htree : p.source.Tree id) (hsources : Sources p given scope id)
    (hn : p.source.height id < n) (expected : Option Ty) :
    ∃ ty, Evaluates p given scope (evaluateWithin p n) expected id ty := by
  induction n generalizing id expected with
  | zero => exact absurd hn (Nat.not_lt_zero _)
  | succ n ih =>
    have hnodup : ((p.source.expr id).slots.map Slot.part).Nodup := by
      rw [Expr.map_part_slots]
      exact htree.nodup id .refl
    obtain ⟨types, htypes⟩ := exists_types (Q := fun slot ty =>
        Evaluates p given scope (evaluateWithin p n) (slot.expects expected) slot.part ty) hnodup
      fun slot hslot => by
        have hpart : p.source.Part id slot.part := Expr.part_mem_children hslot
        have hlt := htree.founded.height_lt hpart
        exact ih (htree.part hpart) (hsources.part hpart) (by omega) _
    exact ⟨_, evaluates_evalStep htree hsources (fun s target hready href =>
      run_referConstant _ id (hready.named id target .refl href)) htypes⟩

/-- The bound on the nesting is above every height, so every tree is evaluated. -/
theorem exists_evaluate {p : Program} {given : ConstId → Ty} {scope : ScopeId} {id : ExprId}
    (htree : p.source.Tree id) (hsources : Sources p given scope id) (expected : Option Ty) :
    ∃ ty, Evaluates p given scope (evaluate p) expected id ty :=
  exists_evaluates htree hsources htree.founded.height_lt_bound expected

end ConstNarrow
