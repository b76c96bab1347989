/-
**One domain at a time.**

A formula is made of literals, names of values, groups and operators. Evaluation carries all readings
of a number along at once and drops those that come to nothing. It could as well be done for one
domain after the other, with at most one value for every part: `Formula.valueIn?`. The two agree: the
type of a formula gathers what the domains give.
-/
import ConstNarrow.Proofs.TreeEvaluation

set_option autoImplicit false

namespace ConstNarrow

open Checker

/-! ## Formulas -/

/-- An expression that stands for a value in each of some domains. -/
inductive Formula where
  | literal (lit : Literal)
  | constant (s : Singleton)
  | group (inner : Formula)
  | unary (op : UnaryOp) (operand : Formula)
  | binary (op : BinaryOp) (lhs rhs : Formula)

/-- The value among the readings of a type that lies in a domain. -/
def Ty.valueIn? (ty : Ty) (k : Primitive) : Option Scalar :=
  ((ty.unionMembers.filterMap Ty.singleton?).find? (·.base.domain == k)).map Singleton.value

/-- The value of a formula in one domain. A literal has one if it has a reading there, a name if its
value lies there; an operator has none if it is not defined in the domain. -/
def Formula.valueIn? (expected : Option Ty) (pruning : Bool) : Formula → Primitive → Option Scalar
  | .literal lit, k =>
    match lit.inferType expected pruning with
    | .ok ty => ty.valueIn? k
    | .error _ => none
  | .constant s, k => if s.base.domain = k then some s.value else none
  | .group inner, k => inner.valueIn? expected pruning k
  | .unary op operand, k =>
    if (op.resultBase? k).isSome then (operand.valueIn? expected pruning k).bind op.fold? else none
  | .binary op lhs rhs, k =>
    if (op.resultBase? k k).isSome then
      (lhs.valueIn? expected pruning k).bind fun a =>
        (rhs.valueIn? expected pruning k).bind fun b => op.fold? a b k
    else none

/-- A formula is what an expression stands for, if the constants that it names are resolved as single
values. -/
inductive Denotes (p : Program) (s : Checker) (scope : ScopeId) : ExprId → Formula → Prop where
  | literal {e : ExprId} {literal : Literal} (h : p.source.expr e = .literal literal) :
      Denotes p s scope e (.literal literal)
  | constant {e : ExprId} {name : String} {target : ConstId} {v : Singleton}
      (h : p.source.expr e = .reference none name)
      (hlookup : p.source.lookup scope name = .bound (.constant target))
      (hstatus : s.status.get? target = some (.resolved (.singleton v))) (hv : v.isProper = true) :
      Denotes p s scope e (.constant v)
  | imported {e : ExprId} {source name : String} {exports : List (String × Export)} {v : Singleton}
      (h : p.source.expr e = .reference (some source) name)
      (hsource : p.imports.lookup source = some exports)
      (hname : exports.lookup name = some (.constant (.singleton v))) (hv : v.isProper = true) :
      Denotes p s scope e (.constant v)
  | group {e inner : ExprId} {f : Formula} (h : p.source.expr e = .group inner)
      (hf : Denotes p s scope inner f) : Denotes p s scope e (.group f)
  | unary {e operand : ExprId} {op : UnaryOp} {f : Formula} (h : p.source.expr e = .unary op operand)
      (hf : Denotes p s scope operand f) : Denotes p s scope e (.unary op f)
  | binary {e lhs rhs : ExprId} {op : BinaryOp} {f g : Formula}
      (h : p.source.expr e = .binary op lhs rhs) (hf : Denotes p s scope lhs f)
      (hg : Denotes p s scope rhs g) : Denotes p s scope e (.binary op f g)

namespace Denotes

variable {p : Program} {s : Checker} {scope : ScopeId} {e b : ExprId} {f : Formula}

theorem part (h : Denotes p s scope e f) (hpart : p.source.Part e b) :
    ∃ g, Denotes p s scope b g := by
  cases h with
  | literal h | constant h _ _ _ | imported h _ _ _ =>
    rw [Module.Part, h] at hpart
    cases hpart
  | group h hf =>
    rw [(Module.part_group_iff h).mp hpart]
    exact ⟨_, hf⟩
  | unary h hf =>
    rw [(Module.part_unary_iff h).mp hpart]
    exact ⟨_, hf⟩
  | binary h hf hg =>
    rcases (Module.part_binary_iff h).mp hpart with rfl | rfl
    · exact ⟨_, hf⟩
    · exact ⟨_, hg⟩

theorem within (h : Denotes p s scope e f) (hb : p.source.Within e b) :
    ∃ g, Denotes p s scope b g := by
  induction hb with
  | refl => exact ⟨f, h⟩
  | tail _ hpart ih =>
    obtain ⟨g, hg⟩ := ih
    exact hg.part hpart

/-- What denotes a formula does not contain itself. -/
theorem founded (h : Denotes p s scope e f) : p.source.Founded e := by
  induction h with
  | literal h | constant h _ _ _ | imported h _ _ _ =>
    refine Module.founded_of_parts fun b hpart => ?_
    rw [Module.Part, h] at hpart
    cases hpart
  | group h _ ih =>
    exact Module.founded_of_parts fun b hpart => (Module.part_group_iff h).mp hpart ▸ ih
  | unary h _ ih =>
    exact Module.founded_of_parts fun b hpart => (Module.part_unary_iff h).mp hpart ▸ ih
  | binary h _ _ ihf ihg =>
    refine Module.founded_of_parts fun b hpart => ?_
    rcases (Module.part_binary_iff h).mp hpart with rfl | rfl
    · exact ihf
    · exact ihg

end Denotes

/-! ## What the domains give -/

/-- A type gathers what there is in each domain: it is the error type if there is nothing, and else
the one value or the union of the values. -/
def Ty.Gathers (ty : Ty) (value? : Primitive → Option Scalar) : Prop :=
  (ty = .error ∧ ∀ k, value? k = none)
    ∨ ∃ values : List Singleton, values ≠ []
      ∧ (values.Pairwise fun a b => a.base.domain ≠ b.base.domain) ∧ ty = .ofValues values
      ∧ ∀ k v, value? k = some v ↔ ∃ s ∈ values, s.base.domain = k ∧ s.value = v

theorem Ty.valueIn?_ofValues {values : List Singleton} (h : IsChoice values) {k : Primitive}
    {v : Scalar} :
    (ofValues values).valueIn? k = some v ↔ ∃ s ∈ values, s.base.domain = k ∧ s.value = v := by
  have hmembers : (values.map singleton).filterMap singleton? = values := by
    rw [List.filterMap_map]
    exact List.filterMap_some
  rw [valueIn?, unionMembers_ofValues, hmembers]
  constructor
  · intro hv
    obtain ⟨s, hs, rfl⟩ := Option.map_eq_some_iff.mp hv
    exact ⟨s, List.mem_of_find?_eq_some hs, by simpa using List.find?_some hs, rfl⟩
  · rintro ⟨s, hs, rfl, rfl⟩
    cases hfind : values.find? (·.base.domain == s.base.domain) with
    | none => simpa using List.find?_eq_none.mp hfind s hs
    | some t =>
      have hdomain : t.base.domain = s.base.domain := by simpa using List.find?_some hfind
      rw [h.eq_of_domain (List.mem_of_find?_eq_some hfind) hs hdomain]
      rfl

/-- An operand gathers its readings. -/
theorem Ty.IsOperand.gathers {ty : Ty} {values : List Singleton} {value? : Primitive → Option Scalar}
    (h : ty.IsOperand) (hty : ty = .ofValues values)
    (hvalue : ∀ k v, value? k = some v ↔ ∃ s ∈ values, s.base.domain = k ∧ s.value = v) :
    ty.Gathers value? := by
  obtain ⟨hchoice, -, -⟩ := h.readings (hty ▸ readingsOf?_ofValues values)
  exact Or.inr ⟨values, hchoice.ne_nil, hchoice.apart, hty, hvalue⟩

/-- What is folded gathers the values by their domains. -/
theorem Scalar.Apart.gathers {values : List Scalar} {value? : Primitive → Option Scalar}
    (h : Scalar.Apart values)
    (hvalue : ∀ k v, value? k = some v ↔ v ∈ values ∧ v.naturalBase = k) :
    (foldedTy values).Gathers value? := by
  by_cases hne : values = []
  · subst hne
    refine Or.inl ⟨rfl, fun k => Option.eq_none_iff_forall_ne_some.mpr fun v hv => ?_⟩
    cases ((hvalue k v).mp hv).1
  · refine Or.inr ⟨_, (h.isChoice hne).ne_nil, (h.isChoice hne).apart, h.foldedTy_eq hne, ?_⟩
    intro k v
    rw [hvalue]
    constructor
    · rintro ⟨hv, rfl⟩
      exact ⟨.ofScalar v, List.mem_map_of_mem hv, v.domain_naturalBase, rfl⟩
    · rintro ⟨s, hs, rfl, rfl⟩
      obtain ⟨w, hw, rfl⟩ := List.mem_map.mp hs
      exact ⟨hw, w.domain_naturalBase.symm⟩

section Operators

variable {ls rs : List Singleton} {left right : Primitive → Option Scalar}

/-- In each domain an operator has the value that it has on the readings there. -/
theorem BinaryOp.mem_values_iff (op : BinaryOp) (hls : Ty.IsChoice ls) (hrs : Ty.IsChoice rs)
    (hleft : ∀ k v, left k = some v ↔ ∃ s ∈ ls, s.base.domain = k ∧ s.value = v)
    (hright : ∀ k v, right k = some v ↔ ∃ s ∈ rs, s.base.domain = k ∧ s.value = v)
    (k : Primitive) (v : Scalar) :
    (if (op.resultBase? k k).isSome then
        (left k).bind fun a => (right k).bind fun b => op.fold? a b k else none) = some v
      ↔ v ∈ op.values ls rs ∧ v.naturalBase = k := by
  rw [mem_values hls hrs]
  constructor
  · intro hv
    split at hv
    · rename_i hdefined
      obtain ⟨a, ha, hv⟩ := Option.bind_eq_some_iff.mp hv
      obtain ⟨b, hb, hfold⟩ := Option.bind_eq_some_iff.mp hv
      obtain ⟨l, hl, hldomain, rfl⟩ := (hleft k a).mp ha
      obtain ⟨r, hr, hrdomain, rfl⟩ := (hright k b).mp hb
      -- the table does not tell a byte from an integer
      obtain ⟨base, hbase⟩ := Option.isSome_iff_exists.mp hdefined
      have hpair : op.resultBase? l.base r.base = some base := by
        rw [← resultBase?_domain, hldomain, hrdomain]
        exact hbase
      have hk : base = k := (domain_of_resultBase? hpair).1.symm.trans hldomain
      exact ⟨⟨l, hl, r, hr, k, hk ▸ hpair, hfold⟩, naturalBase_of_fold? hfold⟩
    · cases hv
  · rintro ⟨⟨l, hl, r, hr, base, hbase, hfold⟩, rfl⟩
    obtain rfl : v.naturalBase = base := naturalBase_of_fold? hfold
    obtain ⟨hldomain, hrdomain⟩ := domain_of_resultBase? hbase
    have hdefined : op.resultBase? v.naturalBase v.naturalBase = some v.naturalBase := by
      rw [← resultBase?_domain, hldomain, hrdomain] at hbase
      exact hbase
    rw [hdefined, (hleft _ _).mpr ⟨l, hl, hldomain, rfl⟩, (hright _ _).mpr ⟨r, hr, hrdomain, rfl⟩]
    exact hfold

theorem UnaryOp.mem_values_iff (op : UnaryOp) (hcoherent : ∀ s ∈ rs, s.IsCoherent)
    (hright : ∀ k v, right k = some v ↔ ∃ s ∈ rs, s.base.domain = k ∧ s.value = v)
    (k : Primitive) (v : Scalar) :
    (if (op.resultBase? k).isSome then (right k).bind op.fold? else none) = some v
      ↔ v ∈ op.values rs ∧ v.naturalBase = k := by
  rw [mem_values]
  constructor
  · intro hv
    split at hv
    · rename_i hdefined
      obtain ⟨a, ha, hfold⟩ := Option.bind_eq_some_iff.mp hv
      obtain ⟨s, hs, hdomain, rfl⟩ := (hright k a).mp ha
      obtain ⟨base, hbase⟩ := Option.isSome_iff_exists.mp hdefined
      refine ⟨⟨s, hs, base, ?_, hfold⟩, ?_⟩
      · rw [← resultBase?_domain, hdomain]
        exact hbase
      · rw [naturalBase_of_fold? hfold, ← hcoherent s hs, hdomain]
    · cases hv
  · rintro ⟨⟨s, hs, base, hbase, hfold⟩, rfl⟩
    have hdomain : s.base.domain = v.naturalBase := by
      rw [naturalBase_of_fold? hfold, hcoherent s hs]
    rw [← resultBase?_domain, hdomain] at hbase
    rw [hbase, (hright _ _).mpr ⟨s, hs, hdomain, rfl⟩]
    exact hfold

/-- A unary operator on what gathers the values of its operand gathers its own. -/
theorem Ty.Gathers.unaryTy {ty : Ty} (h : ty.Gathers right) (hoperand : ty.IsOperand) (op : UnaryOp) :
    (unaryTy op ty).Gathers fun k =>
      if (op.resultBase? k).isSome then (right k).bind op.fold? else none := by
  rw [ConstNarrow.unaryTy]
  rcases h with ⟨rfl, hnone⟩ | ⟨rs, -, -, hrs, hvalue⟩
  · exact Or.inl ⟨rfl, fun k => by simp [hnone k]⟩
  · have hreadings : readingsOf? ty = some rs := hrs ▸ readingsOf?_ofValues rs
    obtain ⟨hchoice, hcoherent, -⟩ := hoperand.readings hreadings
    rw [hreadings]
    exact (UnaryOp.apart_values hchoice hcoherent).gathers (op.mem_values_iff hcoherent hvalue)

/-- A binary operator gathers its values from both sides. If one side has none, there are none in any
domain, which is the error type. -/
theorem Ty.Gathers.binaryTy {lhs rhs : Ty} (hl : lhs.Gathers left) (hr : rhs.Gathers right)
    (hlhs : lhs.IsOperand) (hrhs : rhs.IsOperand) (op : BinaryOp) :
    (binaryTy op lhs rhs).Gathers fun k =>
      if (op.resultBase? k k).isSome then
        (left k).bind fun a => (right k).bind fun b => op.fold? a b k else none := by
  rw [ConstNarrow.binaryTy]
  rcases hl with ⟨rfl, hnone⟩ | ⟨ls, -, -, hls, hleft⟩
  · exact Or.inl ⟨rfl, fun k => by simp [hnone k]⟩
  have hreadings : readingsOf? lhs = some ls := hls ▸ readingsOf?_ofValues ls
  rcases hr with ⟨rfl, hnone⟩ | ⟨rs, -, -, hrs, hright⟩
  · rw [hreadings]
    exact Or.inl ⟨rfl, fun k => by simp [hnone k]⟩
  have hreadings' : readingsOf? rhs = some rs := hrs ▸ readingsOf?_ofValues rs
  obtain ⟨hlchoice, -, -⟩ := hlhs.readings hreadings
  obtain ⟨hrchoice, -, -⟩ := hrhs.readings hreadings'
  rw [hreadings, hreadings']
  exact (op.apart_values ls rs).gathers (op.mem_values_iff hlchoice hrchoice hleft hright)

end Operators

section

variable {p : Program} {s t : Checker} {scope : ScopeId} {expected : Option Ty} {e : ExprId}
variable {f : Formula} {ty : Ty}

/-- A literal gathers its readings, and if it has none its type is the error type. -/
theorem gathers_literalTy {literal : Literal} (h : (literalTy p literal expected).IsOperand) :
    (literalTy p literal expected).Gathers
      ((Formula.literal literal).valueIn? expected p.settings.pruneLiterals) := by
  rw [literalTy] at h ⊢
  cases hread : literal.inferType expected p.settings.pruneLiterals with
  | error why => exact Or.inl ⟨rfl, fun k => by rw [Formula.valueIn?, hread]⟩
  | ok own =>
    rw [hread] at h
    obtain ⟨values, hne, hoffers, rfl⟩ := Literal.reads_of_inferType hread
    have hown := Ty.unionOf_singletons_eq hne hoffers.apart
    obtain ⟨hchoice, -, -⟩ := h.readings (hown ▸ readingsOf?_ofValues values)
    refine h.gathers hown fun k v => ?_
    rw [Formula.valueIn?, hread]
    dsimp only
    rw [hown]
    exact Ty.valueIn?_ofValues hchoice

/-- **What is inferred for a formula gathers what the domains give.** The induction is on the formula:
each operator gathers from what its operands gather, and the operands are held as parts. -/
theorem Denotes.gathers (hf : Denotes p s scope e f)
    (hty : Held p s.given scope t expected e ty) :
    ty.Gathers (f.valueIn? expected p.settings.pruneLiterals) := by
  induction hf generalizing ty with
  | @literal e literal h =>
    cases hty with
    | intro types hty _ operand _ =>
      rw [h] at hty
      subst hty
      exact gathers_literalTy operand
  | @constant e name target v h hlookup hstatus _ =>
    cases hty with
    | intro types hty _ operand _ =>
      rw [h, inferStep, nameTy, hlookup] at hty
      have hone : ty = .ofValues [v] := hty.trans (given_eq hstatus)
      exact operand.gathers hone fun k w => by simp [Formula.valueIn?]
  | @imported e source name exports v h hsource hname _ =>
    cases hty with
    | intro types hty _ operand _ =>
      simp only [h, inferStep, importedTy, hsource, hname] at hty
      have hone : ty = .ofValues [v] := hty
      exact operand.gathers hone fun k w => by simp [Formula.valueIn?]
  | @group e inner f h _ ih =>
    cases hty with
    | intro types hty parts _ _ =>
      rw [h] at hty parts
      rw [hty]
      exact ih (parts ⟨inner, true⟩ List.mem_cons_self)
  | @unary e operand op f h _ ih =>
    cases hty with
    | intro types hty parts _ _ =>
      rw [h] at hty parts
      have hheld := parts ⟨operand, true⟩ List.mem_cons_self
      rw [hty]
      exact (ih hheld).unaryTy hheld.isOperand op
  | @binary e lhs rhs op f g h _ _ ihf ihg =>
    cases hty with
    | intro types hty parts _ _ =>
      rw [h] at hty parts
      have hlhs := parts ⟨lhs, true⟩ List.mem_cons_self
      have hrhs := parts ⟨rhs, true⟩ (List.mem_cons_of_mem _ List.mem_cons_self)
      rw [hty]
      exact (ihf hlhs).binaryTy (ihg hrhs) hlhs.isOperand hrhs.isOperand op

/-- What a name in a formula stands for is one value under a primitive that holds it. -/
theorem Denotes.sources (hf : Denotes p s scope e f) : Sources p s.given scope e := by
  have hproper : ∀ {v : Singleton}, v.isProper = true → (Ty.singleton v).IsOperand := fun {v} hv =>
    ⟨.choice (Ty.isChoice_singleton v), fun w hw =>
      Ty.singleton_injective hw ▸ Singleton.isCoherent_of_isProper hv⟩
  refine ⟨fun b name hb hexpr => ?_, fun b source name hb hexpr => ?_⟩
  · obtain ⟨g, hg⟩ := hf.within hb
    cases hg with
    | constant h hlookup hstatus hv =>
      rw [hexpr] at h
      cases h
      rw [nameTy, hlookup]
      dsimp only
      rw [given_eq hstatus]
      exact hproper hv
    | literal h | imported h _ _ _ | group h _ | unary h _ | binary h _ _ =>
      rw [hexpr] at h
      cases h
  · obtain ⟨g, hg⟩ := hf.within hb
    cases hg with
    | imported h hsource hname hv =>
      rw [hexpr] at h
      cases h
      simp only [importedTy, hsource, hname]
      exact hproper hv
    | literal h | constant h _ _ _ | group h _ | unary h _ | binary h _ _ =>
      rw [hexpr] at h
      cases h

/-- The constants that a formula names are resolved. -/
theorem Denotes.resolved (hf : Denotes p s scope e f) {target : ConstId}
    (href : p.source.referredConstant? scope e = some target) :
    ∃ ty, s.status.get? target = some (.resolved ty) := by
  cases hf with
  | constant h hlookup hstatus _ =>
    simp only [Module.referredConstant?, h, hlookup, Option.some.injEq] at href
    exact ⟨_, href ▸ hstatus⟩
  | literal h | imported h _ _ _ | group h _ | unary h _ | binary h _ _ =>
    simp [Module.referredConstant?, h] at href

end

/-- **Evaluation of a formula is evaluation in each domain by itself.** In any frame and state in
which nothing in the formula has been evaluated, evaluation comes to an end. Its type is the error
type if no domain has a value, and else it is made of the values that the domains have. -/
theorem evaluate_eq_each_domain (p : Program) (s : Checker) (frame : Frame) (e : ExprId) (f : Formula)
    (hf : Denotes p s frame.scope e f) (hunshared : p.source.Unshared e)
    (hfresh : ∀ b, p.source.Within e b → s.exprTypes.get? b = none) :
    ∃ ty t, (evaluate p e frame).run s = some (ty, t)
      ∧ (ty = .error ↔ ∀ k, f.valueIn? frame.expected p.settings.pruneLiterals k = none)
      ∧ (ty ≠ .error → ∃ values : List Singleton, ty = .ofValues values
        ∧ (values.Pairwise fun a b => a.base.domain ≠ b.base.domain)
        ∧ ∀ k v, f.valueIn? frame.expected p.settings.pruneLiterals k = some v
          ↔ ∃ s ∈ values, s.base.domain = k ∧ s.value = v) := by
  have htree : p.source.Tree e := hunshared.tree (hf.founded e .refl)
  obtain ⟨ty, hevaluates⟩ := exists_evaluate htree hf.sources frame.expected
  have hready : Ready p s.given frame.scope s e := by
    refine ⟨hfresh, fun b target hb href => ?_⟩
    obtain ⟨g, hg⟩ := hf.within hb
    obtain ⟨ty, hty⟩ := hg.resolved href
    rw [given_eq hty]
    exact hty
  obtain ⟨result, t, hrun, rfl, -, -, -, hheld⟩ := hevaluates s hready
  refine ⟨result, t, hrun, ?_⟩
  rcases hf.gathers hheld with ⟨herror, hnone⟩ | ⟨values, hne, hapart, hvalues, hvalue⟩
  · exact ⟨⟨fun _ => hnone, fun _ => herror⟩, fun h => absurd herror h⟩
  · have hnot : result ≠ .error := fun herror => by
      have herror' := Ty.isError_ofValues values
      rw [← hvalues, herror] at herror'
      cases herror'
    refine ⟨⟨fun herror => absurd herror hnot, fun hnone => ?_⟩, fun _ =>
      ⟨values, hvalues, hapart, hvalue⟩⟩
    obtain ⟨v, hv⟩ := List.exists_mem_of_ne_nil values hne
    have hsome := (hvalue v.base.domain v.value).mpr ⟨v, hv, rfl, rfl⟩
    rw [hnone] at hsome
    cases hsome

/-- The program of `half = 0.5` and of `(9223372036854775807 + 1) * half`, which is too large for an
integer and has a name that is no decimal. -/
def halving : Program where
  source := Module.empty
    |>.addExpr (.literal (.int "9223372036854775807"))
    |>.addExpr (.literal (.int "1"))
    |>.addExpr (.binary (.arith .add) 0 1)
    |>.addExpr (.group 2)
    |>.addExpr (.reference none "half")
    |>.addExpr (.binary (.arith .mul) 3 4)
    |>.addExpr (.literal (.float "0.5"))
    |>.addConstant ⟨"half", Module.root, 6, none⟩
  imports := []
  settings := ⟨true, .error, 0⟩

/-- The formula of the product. -/
def halvingFormula : Formula :=
  .binary (.arith .mul)
    (.group (.binary (.arith .add) (.literal (.int "9223372036854775807")) (.literal (.int "1"))))
    (.constant (.ofScalar (.float 0.5)))

/-- The state in which `half` is resolved. -/
def halvingState : Checker :=
  { Checker.start with
    status := Table.empty.insert 0 (.resolved (.singleton (.ofScalar (.float 0.5)))) }

theorem halving_eq_each_domain :
    halvingFormula.valueIn? (some .anydata) true .int = none
      ∧ (halvingFormula.valueIn? (some .anydata) true .float).isSome
      ∧ ∃ ty t, (evaluate halving 5 ⟨some .anydata, Module.root⟩).run halvingState = some (ty, t)
        ∧ ty ≠ .error := by
  have hlookup : halving.source.lookup Module.root "half" = .bound (.constant 0) := by decide
  have hdenotes : Denotes halving halvingState Module.root 5 halvingFormula :=
    .binary rfl (.group rfl (.binary rfl (.literal rfl) (.literal rfl))) (.constant rfl hlookup rfl rfl)
  have hfloat : (halvingFormula.valueIn? (some .anydata) true .float).isSome := by decide +kernel
  refine ⟨Option.isNone_iff_eq_none.mp (by decide +kernel), hfloat, ?_⟩
  obtain ⟨ty, t, hrun, herror, -⟩ := evaluate_eq_each_domain halving halvingState
    ⟨some .anydata, Module.root⟩ 5 halvingFormula hdenotes
    (Module.unshared_of_nodup (by decide) 5) fun _ _ => rfl
  refine ⟨ty, t, hrun, fun h => ?_⟩
  have hnone := herror.mp h .float
  rw [Option.isSome_iff_exists] at hfloat
  obtain ⟨v, hv⟩ := hfloat
  cases hnone.symm.trans hv

end ConstNarrow
