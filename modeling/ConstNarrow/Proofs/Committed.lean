/-
**Committed trees.**

After a constant is settled, every expression in its value has a final type. Where an operator
stands, the operands and the result are single values, and they agree: the operator makes the one out
of the others. The signature shows their bases. Nothing is said about a value that a record has
written under a computed key and lost again, since a later field has the same key.

What is evaluated without an expectation has no choice to begin with, so it is committed as soon as
it is evaluated.
-/
import ConstNarrow.Proofs.Refinement
import ConstNarrow.Proofs.TreeEvaluation

set_option autoImplicit false

namespace ConstNarrow

open Checker

/-! ## What lasts -/

/-- The name that a computed key has by the type of the key. -/
def Checker.keyName (s : Checker) (key : ExprId) : Option String :=
  (s.exprTypes.get? key).bind keyOf?

/-- The parts of fields whose values are not lost: a later field with the same computed key takes
the place of an earlier one. -/
def lastingExprs (name? : ExprId → Option String) : List RecordField → List ExprId
  | [] => []
  | .computed key value :: fields =>
    (if (name? key).any (keyNamesOf name? fields).contains then [key] else [key, value])
      ++ lastingExprs name? fields
  | field :: fields => field.exprs ++ lastingExprs name? fields

/-- The parts of an expression whose values are not lost. -/
def Expr.lasting (name? : ExprId → Option String) : Expr → List ExprId
  | .record fields => lastingExprs name? fields
  | e => e.children

/-- The computed key of a field. -/
def RecordField.key? : RecordField → Option ExprId
  | .computed key _ => some key
  | _ => none

/-- The computed keys of an expression. -/
def Expr.keys : Expr → List ExprId
  | .record fields => fields.filterMap RecordField.key?
  | _ => []

theorem keyNamesOf_congr {name? other? : ExprId → Option String} {fields : List RecordField}
    (h : ∀ key ∈ fields.filterMap RecordField.key?, name? key = other? key) :
    keyNamesOf name? fields = keyNamesOf other? fields := by
  induction fields with
  | nil => rfl
  | cons field fields ih =>
    cases field with
    | computed key value =>
      obtain ⟨hkey, hrest⟩ := List.forall_mem_cons.mp h
      rw [keyNamesOf, keyNamesOf, hkey, ih hrest]
    | named | reference | spread => exact ih h

theorem lastingExprs_congr {name? other? : ExprId → Option String} {fields : List RecordField}
    (h : ∀ key ∈ fields.filterMap RecordField.key?, name? key = other? key) :
    lastingExprs name? fields = lastingExprs other? fields := by
  induction fields with
  | nil => rfl
  | cons field fields ih =>
    cases field with
    | computed key value =>
      obtain ⟨hkey, hrest⟩ := List.forall_mem_cons.mp h
      rw [lastingExprs, lastingExprs, hkey, keyNamesOf_congr hrest, ih hrest]
    | named | reference | spread => exact congrArg _ (ih h)

theorem lastingExprs_sublist (name? : ExprId → Option String) (fields : List RecordField) :
    (lastingExprs name? fields).Sublist (fields.flatMap RecordField.exprs) := by
  induction fields with
  | nil => exact .slnil
  | cons field fields ih =>
    rw [List.flatMap_cons]
    cases field with
    | computed key value =>
      refine List.Sublist.append ?_ ih
      split
      · exact (List.nil_sublist [value]).cons_cons key
      · exact .refl _
    | named | reference | spread => exact (List.Sublist.refl _).append ih

/-- Where no computed key is written twice, all parts last. -/
theorem lastingExprs_of_nodup {name? : ExprId → Option String} {fields : List RecordField}
    (h : (keyNamesOf name? fields).Nodup) :
    lastingExprs name? fields = fields.flatMap RecordField.exprs := by
  induction fields with
  | nil => rfl
  | cons field fields ih =>
    cases field with
    | computed key value =>
      rw [keyNamesOf, List.nodup_append] at h
      have hnew : ¬ (name? key).any (keyNamesOf name? fields).contains = true := by
        rw [Option.any_eq_true]
        rintro ⟨name, hname, hmem⟩
        exact h.2.2 name (by rw [hname]; exact List.mem_singleton_self name) name
          (List.contains_iff_mem.mp hmem) rfl
      rw [lastingExprs, if_neg hnew, ih h.2.1]
      rfl
    | _ => exact congrArg _ (ih h)

namespace Expr

variable {e : Expr} {name? other? : ExprId → Option String}

theorem lasting_subset : e.lasting name? ⊆ e.children := by
  cases e with
  | record fields => exact (lastingExprs_sublist name? fields).subset
  | _ => exact List.Subset.refl _

/-- Keys are evaluated without an expectation. -/
theorem slot_of_mem_keys {key : ExprId} (h : key ∈ e.keys) : ⟨key, false⟩ ∈ e.slots := by
  cases e with
  | record fields =>
    obtain ⟨field, hfield, hkey⟩ := List.mem_filterMap.mp h
    cases field with
    | computed other value =>
      cases hkey
      exact List.mem_flatMap.mpr ⟨_, hfield, List.mem_cons_self⟩
    | named | reference | spread => cases hkey
  | missing | literal | reference | list | binary | unary | group | unsupported => cases h

/-- Which parts last depends on the names of the computed keys alone. -/
theorem lasting_congr (h : ∀ key ∈ e.keys, name? key = other? key) :
    e.lasting name? = e.lasting other? := by
  cases e with
  | record fields => exact lastingExprs_congr h
  | _ => rfl

end Expr

/-- A part of an expression lasts, as the types stand. -/
def Lasts (p : Program) (s : Checker) (a b : ExprId) : Prop :=
  b ∈ (p.source.expr a).lasting s.keyName

/-- An expression is another one, or lies in it and lasts. -/
def LastsWithin (p : Program) (s : Checker) : ExprId → ExprId → Prop :=
  Relation.ReflTransGen (Lasts p s)

/-! ## What is committed -/

/-- The types of an operator and of its operands are single values; the operator has the value that
it makes of the operands, and its signature shows the bases. -/
def Computed (s : Checker) (id : ExprId) : Expr → Prop
  | .binary op lhs rhs => ∃ v a b : Singleton, s.exprTypes.get? id = some (.singleton v)
      ∧ s.exprTypes.get? lhs = some (.singleton a) ∧ s.exprTypes.get? rhs = some (.singleton b)
      ∧ op.fold? a.value b.value v.base.domain = some v.value
      ∧ s.signatures.get? id = some ⟨[.primitive a.base, .primitive b.base], .primitive v.base⟩
  | .unary op operand => ∃ v a : Singleton, s.exprTypes.get? id = some (.singleton v)
      ∧ s.exprTypes.get? operand = some (.singleton a) ∧ op.fold? a.value = some v.value
      ∧ s.signatures.get? id = some ⟨[.primitive a.base], .primitive v.base⟩
  | _ => True

/-- Whether a type is that of a list or of a record. -/
def Ty.isStructured : Ty → Bool
  | .tuple _ _ => true
  | .record _ _ _ => true
  | _ => false

/-- An expression has its final type: no choice is left, except in lists and records that stand in
parentheses. -/
structure Settled (p : Program) (s : Checker) (id : ExprId) : Prop where
  entry : ∃ ty, s.exprTypes.get? id = some ty
    ∧ (ty.Definite ∨ (ty.isStructured = true ∧ ∃ inner, p.source.expr id = .group inner))
  computed : Computed s id (p.source.expr id)

/-- Everything that lasts in an expression has its final type. -/
def Committed (p : Program) (s : Checker) (id : ExprId) : Prop :=
  ∀ e, LastsWithin p s id e → Settled p s e

/-- Two states have the same types and signatures in an expression. -/
structure Agrees (m : Module) (id : ExprId) (s t : Checker) : Prop where
  types : ∀ e, m.Within id e → t.exprTypes.get? e = s.exprTypes.get? e
  signatures : ∀ e, m.Within id e → t.signatures.get? e = s.signatures.get? e

namespace Agrees

variable {m : Module} {id : ExprId} {s t u : Checker}

theorem refl (m : Module) (id : ExprId) (s : Checker) : Agrees m id s s :=
  ⟨fun _ _ => rfl, fun _ _ => rfl⟩

theorem symm (h : Agrees m id s t) : Agrees m id t s :=
  ⟨fun e he => (h.types e he).symm, fun e he => (h.signatures e he).symm⟩

theorem trans (h : Agrees m id s t) (h' : Agrees m id t u) : Agrees m id s u :=
  ⟨fun e he => (h'.types e he).trans (h.types e he),
    fun e he => (h'.signatures e he).trans (h.signatures e he)⟩

end Agrees

/-- Two states agree on an expression if only others are touched between them. -/
theorem Checker.Touches.agrees {m : Module} {id : ExprId} {s t : Checker} {inside : ExprId → Prop}
    (h : Touches inside s t) (hapart : ∀ e, m.Within id e → ¬ inside e) : Agrees m id s t :=
  ⟨fun e he => h.types e (hapart e he), fun e he => h.signatures e (hapart e he)⟩

section

variable {p : Program} {given : ConstId → Ty} {scope : ScopeId} {s t : Checker}
variable {expected : Option Ty} {id : ExprId} {ty : Ty}

/-- What is held in one state is held in any that agrees with it. -/
theorem Held.agrees (h : Held p given scope s expected id ty) (hagrees : Agrees p.source id s t) :
    Held p given scope t expected id ty :=
  h.congr (fun e he => hagrees.types e he.to_reflTransGen) hagrees.signatures

theorem keyName_congr (hagrees : Agrees p.source id s t) {e : ExprId} (he : p.source.Within id e) :
    t.keyName e = s.keyName e := by
  rw [keyName, keyName, hagrees.types e he]

theorem LastsWithin.within {e : ExprId} (h : LastsWithin p s id e) : p.source.Within id e := by
  induction h with
  | refl => exact .refl
  | tail _ hlasts ih => exact ih.tail (Expr.lasting_subset hlasts)

/-- What lasts depends on the types of keys in the expression only. -/
theorem LastsWithin.agrees {e : ExprId} (h : LastsWithin p t id e)
    (hagrees : Agrees p.source id s t) : LastsWithin p s id e := by
  induction h with
  | refl => exact .refl
  | @tail a b ha hb ih =>
    refine ih.tail ?_
    have ha : LastsWithin p t id a := ha
    have hnames : ∀ key ∈ (p.source.expr a).keys, t.keyName key = s.keyName key := fun key hkey =>
      keyName_congr hagrees (ha.within.tail (Expr.part_mem_children (Expr.slot_of_mem_keys hkey)))
    rwa [Lasts, Expr.lasting_congr hnames] at hb

theorem Computed.congr {e : Expr} (h : Computed s id e)
    (htypes : t.exprTypes.get? id = s.exprTypes.get? id)
    (hparts : ∀ part ∈ e.children, t.exprTypes.get? part = s.exprTypes.get? part)
    (hsignature : t.signatures.get? id = s.signatures.get? id) : Computed t id e := by
  cases e with
  | binary op lhs rhs =>
    obtain ⟨v, a, b, hv, ha, hb, hfold, hsig⟩ := h
    refine ⟨v, a, b, htypes.trans hv, ?_, ?_, hfold, hsignature.trans hsig⟩
    · exact (hparts lhs List.mem_cons_self).trans ha
    · exact (hparts rhs (List.mem_cons_of_mem _ List.mem_cons_self)).trans hb
  | unary op operand =>
    obtain ⟨v, a, hv, ha, hfold, hsig⟩ := h
    exact ⟨v, a, htypes.trans hv, (hparts operand List.mem_cons_self).trans ha, hfold,
      hsignature.trans hsig⟩
  | missing | literal | reference | list | record | group | unsupported => trivial

/-- What is settled in one state is settled in any that agrees with it. -/
theorem Settled.agrees (h : Settled p s id) (hagrees : Agrees p.source id s t) : Settled p t id where
  entry := by
    rw [hagrees.types id .refl]
    exact h.entry
  computed := h.computed.congr (hagrees.types id .refl) (fun _ hpart => hagrees.types _ (.single hpart))
    (hagrees.signatures id .refl)

/-- What is committed stays so while nothing in the expression changes. -/
theorem Committed.agrees (h : Committed p s id) (hagrees : Agrees p.source id s t) :
    Committed p t id := by
  intro e he
  refine (h e (he.agrees hagrees)).agrees ⟨fun x hx => ?_, fun x hx => ?_⟩
  · exact hagrees.types x (he.within.trans hx)
  · exact hagrees.signatures x (he.within.trans hx)

/-- An expression is committed if it has its final type and its lasting parts are committed. -/
theorem committed_of_parts (h : Settled p s id) (hparts : ∀ part, Lasts p s id part → Committed p s part) :
    Committed p s id := by
  intro e he
  rcases Relation.ReflTransGen.cases_head he with rfl | ⟨part, hpart, he⟩
  · exact h
  · exact hparts part hpart e he

/-! ## What is evaluated without an expectation -/

/-- A type that leaves no choice and is not that of a table. -/
def Ty.IsFirm (ty : Ty) : Prop := ty.Definite ∧ ty ≠ .table

theorem Ty.IsFirm.not_void {ty : Ty} (h : ty.IsFirm) (herror : ty.isError = false) : ¬ ty.IsVoid := by
  rintro (rfl | rfl | rfl)
  · exact h.2 rfl
  · cases h.1
  · cases herror

theorem Ty.not_void_ofValues (values : List Singleton) : ¬ (Ty.ofValues values).IsVoid := by
  rcases values with - | ⟨s, - | ⟨t, values⟩⟩ <;> rintro (h | h | h) <;> cases h

/-- What the names in an expression stand for leaves no choice. -/
structure Firm (p : Program) (given : ConstId → Ty) (scope : ScopeId) (id : ExprId) : Prop where
  named : ∀ e name, p.source.Within id e → p.source.expr e = .reference none name →
    (nameTy p given scope name).IsFirm
  imported : ∀ e source name, p.source.Within id e → p.source.expr e = .reference (some source) name →
    (importedTy p source name).IsFirm

theorem Firm.part (h : Firm p given scope id) {part : ExprId} (hpart : p.source.Part id part) :
    Firm p given scope part :=
  ⟨fun e name he => h.named e name (.head hpart he),
    fun e source name he => h.imported e source name (.head hpart he)⟩

theorem Slot.expects_none (slot : Slot) : slot.expects none = none := by
  rw [expects]
  split <;> rfl

/-- Without an expectation no choice arises. -/
theorem Held.definite (h : Held p given scope s none id ty) (hfirm : Firm p given scope id) :
    ty.Definite := by
  generalize hexpected : (none : Option Ty) = expected at h
  induction h with
  | @intro expected id ty types hty parts _ _ ih =>
    subst hexpected
    have hslots : ∀ part ∈ (p.source.expr id).children, ∃ slot ∈ (p.source.expr id).slots,
        slot.part = part := fun part hpart => by
      rw [← Expr.map_part_slots] at hpart
      exact List.mem_map.mp hpart
    rw [hty]
    refine definite_inferStep (fun name hexpr => (hfirm.named id name .refl hexpr).1)
      (fun source name hexpr => (hfirm.imported id source name .refl hexpr).1)
      (fun part hpart => ?_) fun part hpart => ?_
    · obtain ⟨slot, hslot, rfl⟩ := hslots part hpart
      exact (parts slot hslot).isOperand
    · obtain ⟨slot, hslot, rfl⟩ := hslots part hpart
      exact ih slot hslot (hfirm.part (Expr.part_mem_children hslot)) slot.expects_none.symm

end

namespace BinaryOp

variable {op : BinaryOp} {a b : Singleton} {k : Primitive}

/-- Of single values nothing is dropped. -/
theorem kept_pair (h : op.resultBase? a.base b.base = some k) :
    op.keptLeft [a] [b] = [a] ∧ op.keptRight [a] [b] = [b] := by
  simp [keptLeft, keptRight, h]

/-- An operator on one reading each has one signature. -/
theorem signature_pair (h : op.resultBase? a.base b.base = some k) :
    op.signature [a] [b] = ⟨[.primitive a.base, .primitive b.base], .primitive k⟩ := by
  have hcombinations : combinations op [a] [b] = [⟨a, b, k⟩] := by simp [combinations, h]
  rw [signature, (kept_pair h).1, (kept_pair h).2, hcombinations]
  rfl

end BinaryOp

theorem UnaryOp.signature_one {op : UnaryOp} {a : Singleton} {k : Primitive}
    (h : op.resultBase? a.base = some k) :
    op.signature [a] = ⟨[.primitive a.base], .primitive k⟩ := by
  have happlicable : op.applicable [a] = [a] := by simp [applicable, h]
  rw [signature, happlicable]
  simp only [List.filterMap_cons, h, List.filterMap_nil]
  rfl

section

variable {p : Program} {given : ConstId → Ty} {scope : ScopeId} {s : Checker} {id : ExprId} {ty : Ty}

/-- A binary operator on single values has its value and its signature from the start. -/
theorem Recorded.computed_binary {types : ExprId → Ty} {op : BinaryOp} {lhs rhs : ExprId}
    {a b : Singleton} (h : Recorded s id types (.binary op lhs rhs)) (ha : types lhs = .singleton a)
    (hb : types rhs = .singleton b) (herror : (binaryTy op (types lhs) (types rhs)).isError = false)
    (hentry : s.exprTypes.get? id = some (binaryTy op (types lhs) (types rhs))) :
    s.exprTypes.get? lhs = some (types lhs) ∧ s.exprTypes.get? rhs = some (types rhs)
      ∧ Computed s id (.binary op lhs rhs) := by
  obtain ⟨ls, rs, hls, hrs, hlhs, hrhs, hsignature⟩ := h
  rw [ha] at hls
  rw [hb] at hrs
  cases (readingsOf?_ofValues [a]).symm.trans hls
  cases (readingsOf?_ofValues [b]).symm.trans hrs
  have hty : binaryTy op (.singleton a) (.singleton b) = foldedTy
      ((op.resultBase? a.base b.base).bind fun k => op.fold? a.value b.value k).toList := by
    rw [← BinaryOp.values_pair]
    rfl
  rw [ha, hb, hty] at herror hentry
  -- there is a value, since the result is not erroneous
  cases hfold : (op.resultBase? a.base b.base).bind fun k => op.fold? a.value b.value k with
  | none =>
    rw [hfold] at herror
    cases herror
  | some v =>
    rw [hfold] at hentry
    obtain ⟨k, hk, hfold⟩ := Option.bind_eq_some_iff.mp hfold
    have hbase := BinaryOp.naturalBase_of_fold? hfold
    rw [(BinaryOp.kept_pair hk).1] at hlhs
    rw [(BinaryOp.kept_pair hk).2] at hrhs
    rw [BinaryOp.signature_pair hk] at hsignature
    refine ⟨ha ▸ hlhs, hb ▸ hrhs, .ofScalar v, a, b, hentry, hlhs, hrhs, ?_, ?_⟩
    · rw [Singleton.ofScalar, Scalar.domain_naturalBase, hbase]
      exact hfold
    · rw [Singleton.ofScalar, hbase]
      exact hsignature

/-- So has a unary operator. -/
theorem Recorded.computed_unary {types : ExprId → Ty} {op : UnaryOp} {operand : ExprId}
    {a : Singleton} (h : Recorded s id types (.unary op operand)) (ha : types operand = .singleton a)
    (hcoherent : a.IsCoherent) (herror : (unaryTy op (types operand)).isError = false)
    (hentry : s.exprTypes.get? id = some (unaryTy op (types operand))) :
    Computed s id (.unary op operand) := by
  obtain ⟨rs, hrs, hoperand, hsignature⟩ := h
  rw [ha] at hrs hoperand
  cases (readingsOf?_ofValues [a]).symm.trans hrs
  have hty : unaryTy op (.singleton a)
      = foldedTy ((op.resultBase? a.base).bind fun _ => op.fold? a.value).toList := by
    rw [← UnaryOp.values_one]
    rfl
  rw [ha, hty] at herror hentry
  cases hfold : (op.resultBase? a.base).bind fun _ => op.fold? a.value with
  | none =>
    rw [hfold] at herror
    cases herror
  | some v =>
    rw [hfold] at hentry
    obtain ⟨k, hk, hfold⟩ := Option.bind_eq_some_iff.mp hfold
    -- the value lies in the domain of the operand, and so does the result base
    have hbase : v.naturalBase = k := by
      rw [UnaryOp.naturalBase_of_fold? hfold, ← hcoherent]
      exact UnaryOp.domain_of_resultBase? hk
    rw [UnaryOp.signature_one hk] at hsignature
    refine ⟨.ofScalar v, a, hentry, hoperand, hfold, ?_⟩
    rw [Singleton.ofScalar, hbase]
    exact hsignature

/-- A definite type of an operand that takes part in an operation is a single value. -/
theorem Ty.IsOperand.eq_singleton {ty : Ty} (h : ty.IsOperand) (hdefinite : ty.Definite)
    {values : List Singleton} (hvalues : readingsOf? ty = some values) :
    ∃ a, ty = .singleton a ∧ a.IsCoherent := by
  obtain ⟨-, hcoherent, rfl⟩ := h.readings hvalues
  obtain ⟨a, rfl⟩ := hdefinite.eq_singleton
  exact ⟨a, rfl, hcoherent a (List.mem_singleton_self a)⟩

/-- **What is evaluated without an expectation is committed.** The tables hold single values at
every operator in it, so nothing was dropped on the way. -/
theorem Held.committed (h : Held p given scope s none id ty) (hfirm : Firm p given scope id)
    (herror : ty.isError = false) (hentry : s.exprTypes.get? id = some ty) : Committed p s id := by
  have hdefinite := h.definite hfirm
  generalize hexpected : (none : Option Ty) = expected at h
  induction h with
  | @intro expected id ty types hty parts operand recorded ih =>
    subst hexpected
    have hrecorded := recorded herror
    rw [hty] at herror
    have hnone : ∀ slot ∈ (p.source.expr id).slots,
        Held p given scope s none slot.part (types slot.part) := fun slot hslot =>
      slot.expects_none ▸ parts slot hslot
    have hparts : ∀ slot ∈ (p.source.expr id).slots, (types slot.part).Definite := fun slot hslot =>
      (hnone slot hslot).definite (hfirm.part (Expr.part_mem_children hslot))
    -- what the tables hold for the parts are their types, also below operators
    have hall : (∀ part ∈ (p.source.expr id).children, s.exprTypes.get? part = some (types part))
        ∧ Computed s id (p.source.expr id) := by
      cases hexpr : p.source.expr id with
      | binary op lhs rhs =>
        rw [hexpr] at hrecorded hty herror hparts hnone
        obtain ⟨hlhs, hright⟩ := List.forall_mem_cons.mp hnone
        have hrhs := List.forall_mem_singleton.mp hright
        have ⟨ls, rs, hls, hrs, _⟩ := hrecorded
        obtain ⟨a, ha, -⟩ := hlhs.isOperand.eq_singleton (hparts _ List.mem_cons_self) hls
        obtain ⟨b, hb, -⟩ := hrhs.isOperand.eq_singleton
          (hparts _ (List.mem_cons_of_mem _ List.mem_cons_self)) hrs
        obtain ⟨hl, hr, hcomputed⟩ :=
          hrecorded.computed_binary ha hb herror (hentry.trans (congrArg some hty))
        exact ⟨List.forall_mem_cons.mpr ⟨hl, List.forall_mem_singleton.mpr hr⟩, hcomputed⟩
      | unary op operand =>
        rw [hexpr] at hrecorded hty herror hparts hnone
        have hoperand := List.forall_mem_singleton.mp hnone
        have ⟨rs, hrs, hentry', _⟩ := hrecorded
        obtain ⟨a, ha, hcoherent⟩ := hoperand.isOperand.eq_singleton (hparts _ List.mem_cons_self) hrs
        exact ⟨List.forall_mem_singleton.mpr hentry',
          hrecorded.computed_unary ha hcoherent herror (hentry.trans (congrArg some hty))⟩
      | missing | literal | reference | list | record | group | unsupported =>
        rw [hexpr] at hrecorded
        exact ⟨hrecorded, trivial⟩
    refine committed_of_parts ⟨⟨ty, hentry, Or.inl hdefinite⟩, hall.2⟩ fun part hlasts => ?_
    have hpart : part ∈ (p.source.expr id).children := Expr.lasting_subset hlasts
    have hok := isError_of_inferStep herror part hpart
    have hpartEntry := hall.1 part hpart
    rw [← Expr.map_part_slots] at hpart
    obtain ⟨slot, hslot, rfl⟩ := List.mem_map.mp hpart
    exact ih slot hslot (hfirm.part (Expr.part_mem_children hslot)) hok hpartEntry
      (hparts slot hslot) slot.expects_none.symm

/-- What is not erroneous offers something to choose from, if all names do. -/
theorem Held.not_void {expected : Option Ty} (h : Held p given scope s expected id ty)
    (hfirm : Firm p given scope id) (herror : ty.isError = false) : ¬ ty.IsVoid := by
  induction h with
  | @intro expected id ty types hty parts operand recorded ih =>
    rw [hty] at herror ⊢
    cases hexpr : p.source.expr id with
    | missing | unsupported =>
      rw [hexpr] at herror
      cases herror
    | literal literal =>
      rw [hexpr] at herror
      obtain ⟨values, -, -, heq⟩ := literalTy_ok herror
      rw [inferStep, heq]
      exact Ty.not_void_ofValues values
    -- only a name could stand for `table` or `anydata`, and a firm type is neither
    | reference source name =>
      rw [hexpr] at herror
      cases source with
      | none => exact (hfirm.named id name .refl hexpr).not_void herror
      | some source => exact (hfirm.imported id source name .refl hexpr).not_void herror
    | list items =>
      rw [hexpr, inferStep, listTy] at herror
      rw [inferStep, listTy]
      split at herror
      · rintro (h | h | h) <;> cases h
      · cases herror
    | record fields =>
      rw [hexpr, inferStep, recordTy] at herror
      rw [inferStep, recordTy]
      split at herror
      · cases herror
      · rename_i hok
        rw [if_neg hok]
        rintro (h | h | h) <;> cases h
    | binary op lhs rhs =>
      rw [hexpr] at herror
      obtain ⟨ls, rs, -, -, -, heq⟩ := binaryTy_ok herror
      rw [inferStep, heq]
      exact Ty.not_void_ofValues _
    | unary op inner =>
      rw [hexpr] at herror parts
      obtain ⟨rs, -, -, heq⟩ := unaryTy_ok (parts _ List.mem_cons_self).isOperand herror
      rw [inferStep, heq]
      exact Ty.not_void_ofValues _
    | group inner =>
      rw [hexpr] at herror ih
      have hpart : p.source.Part id inner := (Module.part_group_iff hexpr).mpr rfl
      exact ih _ List.mem_cons_self (hfirm.part hpart) herror

end

end ConstNarrow
