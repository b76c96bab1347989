/-
**Pruned readings.**

A number has a reading in each kind that its text allows. Where a type is declared, the readings of
kinds that do not occur in it may be dropped before anything is made of them. Here the types that are
inferred with all readings are compared with those that are inferred with the readings of some kinds
only.

The awkward part is that dropping can go too far: a number may lose all its readings, and is then an
error in the one evaluation and not in the other. So there are two outcomes. Either the second type is
the first with readings dropped, `Prunes`, or the first has a part without any reading of those kinds,
`Unfit`, and it will turn out that no declared type with those kinds takes it.
-/
import ConstNarrow.Proofs.Committed

set_option autoImplicit false

namespace ConstNarrow

open Checker

/-! ## Readings of some kinds -/

/-- Whether a primitive holds numbers of one of some kinds. -/
def Primitive.isAmong (kinds : List NumericKind) (p : Primitive) : Bool :=
  p.numericKind?.any kinds.contains

theorem Primitive.isNumeric_congr {p q : Primitive} (h : p.domain = q.domain) :
    p.isNumeric = q.isNumeric := by
  rw [isNumeric, isNumeric, ← numericKind?_domain p, ← numericKind?_domain q, h]

theorem Primitive.isAmong_congr {kinds : List NumericKind} {p q : Primitive}
    (h : p.domain = q.domain) : p.isAmong kinds = q.isAmong kinds := by
  rw [isAmong, isAmong, ← numericKind?_domain p, ← numericKind?_domain q, h]

/-- All values are numbers, and those of some kinds are kept. -/
structure Selects (kinds : List NumericKind) (values kept : List Singleton) : Prop where
  numeric : ∀ s ∈ values, s.base.isNumeric = true
  mem : ∀ s, s ∈ kept ↔ s ∈ values ∧ s.base.isAmong kinds = true

/-- Of some readings all are left, or those of some kinds. -/
def Reduces (kinds : List NumericKind) (values kept : List Singleton) : Prop :=
  kept = values ∨ Selects kinds values kept

section Readings

variable {kinds : List NumericKind} {values kept : List Singleton}

theorem Reduces.mem (h : Reduces kinds values kept) {s : Singleton} (hs : s ∈ kept) : s ∈ values := by
  rcases h with rfl | h
  · exact hs
  · exact ((h.mem s).mp hs).1

theorem Reduces.keeps (h : Reduces kinds values kept) {s : Singleton} (hs : s ∈ values)
    (hamong : s.base.isAmong kinds = true) : s ∈ kept := by
  rcases h with rfl | h
  · exact hs
  · exact (h.mem s).mpr ⟨hs, hamong⟩

theorem Reduces.unique (h : Reduces kinds values kept) (hvalues : Ty.IsChoice values) :
    ∀ s ∈ kept, ∀ t ∈ kept, s.base.domain = t.base.domain → s = t :=
  fun _ hs _ ht => hvalues.eq_of_domain (h.mem hs) (h.mem ht)

end Readings

namespace Ty

/-- A type with readings dropped: wherever a number has several, those of some kinds may be all that
is left. -/
inductive Prunes (kinds : List NumericKind) : Ty → Ty → Prop where
  | self (ty : Ty) : Prunes kinds ty ty
  | choice {values kept : List Singleton} (hvalues : IsChoice values) (hne : kept ≠ [])
      (h : Selects kinds values kept) : Prunes kinds (ofValues values) (ofValues kept)
  | tuple {members others : List Ty} (h : List.Forall₂ (Prunes kinds) members others) :
      Prunes kinds (.tuple members none) (.tuple others none)
  | record {fields others : Fields none}
      (h : ∀ name, Option.Rel (fun a b : Field => Prunes kinds a.ty b.ty) (fields.get? name)
        (others.get? name)) : Prunes kinds (sealedRecord fields) (sealedRecord others)

/-- A type has a part that is a number without a reading of some kinds. -/
inductive Unfit (kinds : List NumericKind) : Ty → Prop where
  | choice {values : List Singleton} (hne : values ≠ []) (h : Selects kinds values []) :
      Unfit kinds (ofValues values)
  | member {members : List Ty} {rest : Option Ty} {ty : Ty} (hty : ty ∈ members)
      (h : Unfit kinds ty) : Unfit kinds (.tuple members rest)
  | field {fields : Fields none} {rest : Option Ty} {isSealed : Bool} {name : String} {field : Field}
      (hfield : fields.get? name = some field) (h : Unfit kinds field.ty) :
      Unfit kinds (.record fields rest isSealed)

/-- What becomes of a type when readings are dropped where they arise. -/
def PrunedTo (kinds : List NumericKind) (ty other : Ty) : Prop :=
  Prunes kinds ty other ∨ Unfit kinds ty

variable {kinds : List NumericKind} {ty other : Ty} {values kept : List Singleton}

theorem Prunes.isError_eq (h : Prunes kinds ty other) : other.isError = ty.isError := by
  cases h with
  | self => rfl
  | choice => rw [isError_ofValues, isError_ofValues]
  | tuple | record => rfl

/-- What becomes of a choice of readings: a choice of those that are left, if there are any. -/
theorem PrunedTo.readings (h : PrunedTo kinds (ofValues values) other) :
    ∃ kept, Reduces kinds values kept ∧ (kept ≠ [] → other = ofValues kept) := by
  generalize hty : ofValues values = ty at h
  rcases h with h | h
  · cases h with
    | self => exact ⟨values, Or.inl rfl, fun _ => hty.symm⟩
    | @choice readings kept _ _ hselects =>
      cases ofValues_injective hty
      exact ⟨kept, Or.inr hselects, fun _ => rfl⟩
    | tuple => exact absurd hty (ofValues_ne_tuple _ _ _)
    | record => exact absurd hty (ofValues_ne_record _ _ _ _)
  · cases h with
    | choice _ hselects =>
      cases ofValues_injective hty
      exact ⟨[], Or.inr hselects, fun hne => absurd rfl hne⟩
    | member => exact absurd hty (ofValues_ne_tuple _ _ _)
    | field => exact absurd hty (ofValues_ne_record _ _ _ _)

/-- A choice of readings becomes a choice of those that are left, or is unfit if none is. -/
theorem prunedTo_of_reduces (hvalues : IsChoice values) (h : Reduces kinds values kept)
    (hother : kept ≠ [] → other = ofValues kept) : PrunedTo kinds (ofValues values) other := by
  by_cases hne : kept = []
  · subst hne
    rcases h with h | h
    · exact absurd h.symm hvalues.ne_nil
    · exact Or.inr (.choice hvalues.ne_nil h)
  · rw [hother hne]
    rcases h with rfl | h
    · exact Or.inl (.self _)
    · exact Or.inl (.choice hvalues hne h)

end Ty

/-! ## Literals -/

/-- A program with literals pruned or not. -/
def Program.pruning (p : Program) (prune : Bool) : Program :=
  { p with settings := { p.settings with pruneLiterals := prune } }

namespace Literal

theorem isNumeric_intReadings (text : String) (i : Int64) :
    ∀ s ∈ intReadings text i, s.base.isNumeric = true := by
  unfold intReadings
  split <;> simp [Singleton.ofScalar, Scalar.naturalBase, Primitive.isNumeric, Primitive.numericKind?]

theorem isNumeric_pointReadings (text : String) :
    ∀ s ∈ pointReadings text, s.base.isNumeric = true := by
  intro s hs
  rcases List.mem_append.mp hs with hs | hs
  · obtain ⟨d, -, rfl⟩ := Option.map_eq_some_iff.mp (Option.mem_toList.mp hs)
    rfl
  · obtain ⟨x, -, rfl⟩ := Option.map_eq_some_iff.mp (Option.mem_toList.mp hs)
    rfl

/-- Pruning makes a difference only to a number of ambiguous kind where a type is expected. -/
theorem inferType_pruning (literal : Literal) (expected : Option Ty) :
    (∀ pruning, literal.inferType expected pruning = literal.inferType expected false)
      ∨ ∃ text readings ty, expected = some ty ∧ Offers readings
        ∧ (∀ s ∈ readings, s.base.isNumeric = true)
        ∧ ∀ pruning, literal.inferType expected pruning = inContext text readings ty pruning := by
  cases literal with
  | int text =>
    cases hread : readInt? text with
    | none => exact Or.inl fun pruning => by simp [inferType, hread]
    | some i =>
      cases hexpected : expected.filter (!·.effective.isError) with
      | none => exact Or.inl fun pruning => by simp [inferType, hread, hexpected]
      | some ty =>
        refine Or.inr ⟨text, intReadings text i, ty, (Option.filter_eq_some_iff.mp hexpected).1,
          offers_intReadings text i, isNumeric_intReadings text i, fun pruning => ?_⟩
        simp [inferType, hread, hexpected]
  | float text =>
    cases hfloat : withoutMark? text 'f' 'F' with
    | some body => exact Or.inl fun pruning => by simp [inferType, hfloat]
    | none =>
      cases hdecimal : withoutMark? text 'd' 'D' with
      | some body => exact Or.inl fun pruning => by simp [inferType, hfloat, hdecimal]
      | none =>
        cases hexpected : expected.filter (!·.effective.isError) with
        | none => exact Or.inl fun pruning => by simp [inferType, hfloat, hdecimal, hexpected]
        | some ty =>
          refine Or.inr ⟨text, pointReadings text, ty, (Option.filter_eq_some_iff.mp hexpected).1,
            offers_pointReadings text, isNumeric_pointReadings text, fun pruning => ?_⟩
          simp [inferType, hfloat, hdecimal, hexpected]
  | hexFloat | string | boolean | nil => exact Or.inl fun _ => rfl

theorem restrict_eq_self {readings : List Singleton} {expected : Ty}
    (hnumeric : ∀ s ∈ readings, s.base.isNumeric = true)
    (h : expected.numericKinds = [] ∨ ∀ kind, kind ∈ expected.numericKinds) :
    restrict readings expected = readings := by
  unfold restrict
  rcases h with h | h
  · simp [h]
  · dsimp only
    split
    · rfl
    · refine List.filter_eq_self.mpr fun s hs => ?_
      obtain ⟨kind, hkind⟩ := Option.isSome_iff_exists.mp (hnumeric s hs)
      simp [hkind, h kind]

/-- An expected type selects the readings of the kinds that occur in it. -/
theorem selects_restrict {readings : List Singleton} {expected : Ty}
    (hnumeric : ∀ s ∈ readings, s.base.isNumeric = true) (h : expected.numericKinds ≠ []) :
    Selects expected.numericKinds readings (restrict readings expected) := by
  refine ⟨hnumeric, fun s => ?_⟩
  rw [restrict, if_neg (by simpa using h), List.mem_filter]
  rfl

end Literal

section Literals

variable (p : Program) (literal : Literal)

theorem literalTy_congr {expected : Option Ty} {prune : Bool}
    (h : literal.inferType expected prune = literal.inferType expected false) :
    literalTy (p.pruning prune) literal expected = literalTy (p.pruning false) literal expected := by
  have hpruned : literal.inferType expected (p.pruning prune).settings.pruneLiterals
      = literal.inferType expected (p.pruning false).settings.pruneLiterals := h
  rw [literalTy, literalTy, hpruned]

theorem literalTy_unexpected (prune : Bool) :
    literalTy (p.pruning prune) literal none = literalTy (p.pruning false) literal none := by
  rcases literal.inferType_pruning none with h | ⟨_, _, _, hty, -⟩
  · exact literalTy_congr p literal (h prune)
  · cases hty

/-- Where all kinds occur in a type, or none does, nothing is pruned. -/
theorem literalTy_unpruned {expected : Ty}
    (h : expected.numericKinds = [] ∨ ∀ kind, kind ∈ expected.numericKinds) (prune : Bool) :
    literalTy (p.pruning prune) literal (some expected)
      = literalTy (p.pruning false) literal (some expected) := by
  refine literalTy_congr p literal ?_
  rcases literal.inferType_pruning (some expected) with
    hsame | ⟨text, readings, ty, hty, -, hnumeric, hin⟩
  · exact hsame prune
  · cases hty
    rw [hin, hin, Literal.inContext, Literal.inContext, Literal.restrict_eq_self hnumeric h,
      ite_self, ite_self]

theorem literalTy_of_typeOf {q : Program} {expected : Option Ty} {text : String}
    {readings : List Singleton} (hoffers : Literal.Offers readings) (hne : readings ≠ [])
    (h : literal.inferType expected q.settings.pruneLiterals = Literal.typeOf text readings) :
    literalTy q literal expected = Ty.ofValues readings := by
  rw [literalTy, h, Literal.typeOf, if_neg (by simpa using hne)]
  exact Ty.unionOf_singletons_eq hne hoffers.apart

/-- **A literal is pruned to the readings of the kinds that occur in the expected type.** -/
theorem prunedTo_literalTy {expected : Ty} (hkinds : expected.numericKinds ≠ [])
    (hok : (literalTy (p.pruning false) literal (some expected)).isError = false) :
    Ty.PrunedTo expected.numericKinds (literalTy (p.pruning false) literal (some expected))
      (literalTy (p.pruning true) literal (some expected)) := by
  rcases literal.inferType_pruning (some expected) with
    hsame | ⟨text, readings, ty, hty, hoffers, hnumeric, hin⟩
  · rw [literalTy_congr p literal (hsame true)]
    exact Or.inl (.self _)
  · cases hty
    -- a number without readings would have been an error
    have hne : readings ≠ [] := by
      rintro rfl
      rw [literalTy] at hok
      have hnone : literal.inferType (some expected) (p.pruning false).settings.pruneLiterals
          = .error ⟨text⟩ := hin false
      rw [hnone] at hok
      cases hok
    have hnatural : ∀ s ∈ readings, s = .ofScalar s.value := by
      intro s hs
      obtain ⟨v, rfl⟩ := hoffers.natural s hs
      rfl
    rw [literalTy_of_typeOf literal hoffers hne (hin false)]
    refine Ty.prunedTo_of_reduces (Ty.isChoice_of_natural hne hoffers.apart hnatural)
      (Or.inr (Literal.selects_restrict hnumeric hkinds)) fun hkept => ?_
    exact literalTy_of_typeOf literal (hoffers.sublist (Literal.restrict_sublist readings expected))
      hkept (hin true)

end Literals

/-! ## Operators -/

section Operators

variable {kinds : List NumericKind} {ls rs ls' rs' : List Singleton}

/-- The value of an operator lies in the domain of both operands. -/
theorem BinaryOp.domain_of_fold? {op : BinaryOp} {l r : Singleton} {k : Primitive} {v : Scalar}
    (hk : op.resultBase? l.base r.base = some k) (hfold : op.fold? l.value r.value k = some v) :
    (Singleton.ofScalar v).base.domain = l.base.domain
      ∧ (Singleton.ofScalar v).base.domain = r.base.domain := by
  obtain ⟨hl, hr⟩ := domain_of_resultBase? hk
  have hv : (Singleton.ofScalar v).base.domain = k := by
    rw [Singleton.ofScalar, Scalar.domain_naturalBase]
    exact naturalBase_of_fold? hfold
  exact ⟨hv.trans hl.symm, hv.trans hr.symm⟩

/-- **Where readings of an operand are dropped, so are the values that come from them**, and no
others. -/
theorem BinaryOp.reduces_values (op : BinaryOp) (hls : Ty.IsChoice ls) (hrs : Ty.IsChoice rs)
    (hleft : Reduces kinds ls ls') (hright : Reduces kinds rs rs') :
    Reduces kinds ((op.values ls rs).map .ofScalar) ((op.values ls' rs').map .ofScalar) := by
  -- numbers on one side are enough, since the operands and the value lie in one domain
  by_cases hone : Selects kinds ls ls' ∨ Selects kinds rs rs'
  · have hmem {v : Scalar} := @mem_values op _ _ hls hrs v
    have hmem' {v : Scalar} := @mem_values_of_unique op _ _ (hleft.unique hls) (hright.unique hrs) v
    refine Or.inr ⟨fun s hs => ?_, fun s => ⟨fun hs => ?_, fun ⟨hs, hamong⟩ => ?_⟩⟩
    · obtain ⟨v, hv, rfl⟩ := List.mem_map.mp hs
      obtain ⟨l, hl, r, hr, k, hk, hfold⟩ := hmem.mp hv
      obtain ⟨hdl, hdr⟩ := domain_of_fold? hk hfold
      rcases hone with h | h
      · rw [Primitive.isNumeric_congr hdl]
        exact h.numeric l hl
      · rw [Primitive.isNumeric_congr hdr]
        exact h.numeric r hr
    · obtain ⟨v, hv, rfl⟩ := List.mem_map.mp hs
      obtain ⟨l, hl, r, hr, k, hk, hfold⟩ := hmem'.mp hv
      obtain ⟨hdl, hdr⟩ := domain_of_fold? hk hfold
      refine ⟨List.mem_map_of_mem (hmem.mpr ⟨l, hleft.mem hl, r, hright.mem hr, k, hk, hfold⟩), ?_⟩
      rcases hone with h | h
      · rw [Primitive.isAmong_congr hdl]
        exact ((h.mem l).mp hl).2
      · rw [Primitive.isAmong_congr hdr]
        exact ((h.mem r).mp hr).2
    · obtain ⟨v, hv, rfl⟩ := List.mem_map.mp hs
      obtain ⟨l, hl, r, hr, k, hk, hfold⟩ := hmem.mp hv
      obtain ⟨hdl, hdr⟩ := domain_of_fold? hk hfold
      -- a value that is kept comes from operands that are
      have hl' : l ∈ ls' := hleft.keeps hl (Primitive.isAmong_congr hdl ▸ hamong)
      have hr' : r ∈ rs' := hright.keeps hr (Primitive.isAmong_congr hdr ▸ hamong)
      exact List.mem_map_of_mem (hmem'.mpr ⟨l, hl', r, hr', k, hk, hfold⟩)
  · rw [not_or] at hone
    cases hleft.resolve_right hone.1
    cases hright.resolve_right hone.2
    exact Or.inl rfl

/-- Without a reading on one side there is no value. -/
theorem BinaryOp.readings_ne_nil {op : BinaryOp} (h : op.values ls rs ≠ []) : ls ≠ [] ∧ rs ≠ [] := by
  refine ⟨fun hls => h ?_, fun hrs => h ?_⟩
  · rw [hls]
    rfl
  · have hnone : combinations op ls [] = [] := by
      rw [combinations]
      exact List.flatMap_eq_nil_iff.mpr fun _ _ => rfl
    rw [hrs, values, hnone]
    rfl

/-- **A binary operator on operands that are pruned is pruned.** -/
theorem prunedTo_binaryTy {op : BinaryOp} {lhs rhs lhs' rhs' : Ty}
    (hok : (binaryTy op lhs rhs).isError = false) (hlhs : lhs.IsOperand) (hrhs : rhs.IsOperand)
    (hleft : Ty.PrunedTo kinds lhs lhs') (hright : Ty.PrunedTo kinds rhs rhs') :
    Ty.PrunedTo kinds (binaryTy op lhs rhs) (binaryTy op lhs' rhs') := by
  obtain ⟨ls, rs, hls, hrs, hchoice, heq⟩ := binaryTy_ok hok
  obtain ⟨hlsChoice, -, rfl⟩ := hlhs.readings hls
  obtain ⟨hrsChoice, -, rfl⟩ := hrhs.readings hrs
  obtain ⟨ls', hreduceLeft, hlhs'⟩ := hleft.readings
  obtain ⟨rs', hreduceRight, hrhs'⟩ := hright.readings
  rw [heq]
  refine Ty.prunedTo_of_reduces hchoice
    (op.reduces_values hlsChoice hrsChoice hreduceLeft hreduceRight) fun hne => ?_
  have hvalues : op.values ls' rs' ≠ [] := by simpa using hne
  obtain ⟨hls', hrs'⟩ := BinaryOp.readings_ne_nil hvalues
  rw [hlhs' hls', hrhs' hrs', binaryTy, readingsOf?_ofValues, readingsOf?_ofValues]
  exact (op.apart_values ls' rs').foldedTy_eq hvalues

theorem UnaryOp.domain_of_fold? {op : UnaryOp} {s : Singleton} (hs : s.IsCoherent) {v : Scalar}
    (hfold : op.fold? s.value = some v) : (Singleton.ofScalar v).base.domain = s.base.domain := by
  rw [Singleton.ofScalar, Scalar.domain_naturalBase, naturalBase_of_fold? hfold]
  exact hs.symm

theorem UnaryOp.reduces_values (op : UnaryOp) (hcoherent : ∀ s ∈ rs, s.IsCoherent)
    (h : Reduces kinds rs rs') :
    Reduces kinds ((op.values rs).map .ofScalar) ((op.values rs').map .ofScalar) := by
  rcases h with rfl | h
  · exact Or.inl rfl
  · refine Or.inr ⟨fun s hs => ?_, fun s => ⟨fun hs => ?_, fun ⟨hs, hamong⟩ => ?_⟩⟩
    · obtain ⟨v, hv, rfl⟩ := List.mem_map.mp hs
      obtain ⟨r, hr, k, hk, hfold⟩ := mem_values.mp hv
      rw [Primitive.isNumeric_congr (domain_of_fold? (hcoherent r hr) hfold)]
      exact h.numeric r hr
    · obtain ⟨v, hv, rfl⟩ := List.mem_map.mp hs
      obtain ⟨r, hr', k, hk, hfold⟩ := mem_values.mp hv
      obtain ⟨hr, hamong⟩ := (h.mem r).mp hr'
      refine ⟨List.mem_map_of_mem (mem_values.mpr ⟨r, hr, k, hk, hfold⟩), ?_⟩
      rw [Primitive.isAmong_congr (domain_of_fold? (hcoherent r hr) hfold)]
      exact hamong
    · obtain ⟨v, hv, rfl⟩ := List.mem_map.mp hs
      obtain ⟨r, hr, k, hk, hfold⟩ := mem_values.mp hv
      have hr' : r ∈ rs' := (h.mem r).mpr
        ⟨hr, Primitive.isAmong_congr (domain_of_fold? (hcoherent r hr) hfold) ▸ hamong⟩
      exact List.mem_map_of_mem (mem_values.mpr ⟨r, hr', k, hk, hfold⟩)

/-- **A unary operator on an operand that is pruned is pruned.** -/
theorem prunedTo_unaryTy {op : UnaryOp} {operand operand' : Ty}
    (hok : (unaryTy op operand).isError = false) (hoperand : operand.IsOperand)
    (hoperand' : operand'.IsOperand) (h : Ty.PrunedTo kinds operand operand') :
    Ty.PrunedTo kinds (unaryTy op operand) (unaryTy op operand') := by
  obtain ⟨rs, hrs, hchoice, heq⟩ := unaryTy_ok hoperand hok
  obtain ⟨-, hcoherent, rfl⟩ := hoperand.readings hrs
  obtain ⟨rs', hreduce, hother⟩ := h.readings
  rw [heq]
  refine Ty.prunedTo_of_reduces hchoice (op.reduces_values hcoherent hreduce) fun hne => ?_
  have hvalues : op.values rs' ≠ [] := by simpa using hne
  have hrs' : rs' ≠ [] := fun hnil => hvalues (by rw [hnil]; rfl)
  rw [hother hrs'] at hoperand' ⊢
  obtain ⟨hchoice', hcoherent', -⟩ := hoperand'.readings (readingsOf?_ofValues rs')
  rw [unaryTy, readingsOf?_ofValues]
  exact (UnaryOp.apart_values hchoice' hcoherent').foldedTy_eq hvalues

end Operators

/-! ## Lists -/

/-- What becomes of a part: one that is guided may lose readings, any other is the same. -/
def PartPruned (kinds : List NumericKind) (types others : ExprId → Ty) (slot : Slot) : Prop :=
  match slot.guided with
  | true => Ty.PrunedTo kinds (types slot.part) (others slot.part)
  | false => others slot.part = types slot.part

section Parts

variable {kinds : List NumericKind} {types others : ExprId → Ty}

theorem forall₂_self (members : List Ty) : List.Forall₂ (Ty.Prunes kinds) members members :=
  List.forall₂_same.mpr fun ty _ => .self ty

/-- Unless a member has no reading left, the items are pruned one by one. -/
theorem itemTys?_pruned {items : List ListItem} {members : List Ty}
    (h : ∀ slot ∈ items.map ListItem.slot, PartPruned kinds types others slot)
    (hmembers : itemTys? types items = some members) :
    (∃ ty ∈ members, ty.Unfit kinds)
      ∨ ∃ rest, itemTys? others items = some rest ∧ List.Forall₂ (Ty.Prunes kinds) members rest := by
  induction items generalizing members with
  | nil =>
    cases hmembers
    exact Or.inr ⟨[], rfl, .nil⟩
  | cons item items ih =>
    rw [List.map_cons, List.forall_mem_cons] at h
    obtain ⟨hfirst, hitems⟩ := h
    cases item with
    | member value =>
      rw [itemTys?] at hmembers
      split at hmembers
      · cases hmembers
      · rename_i hvalue
        obtain ⟨tys, htys, rfl⟩ := Option.map_eq_some_iff.mp hmembers
        rcases hfirst with hprunes | hunfit
        · rcases ih hitems htys with ⟨ty, hty, hunfit⟩ | ⟨rest, hrest, hall⟩
          · exact Or.inl ⟨ty, List.mem_cons_of_mem _ hty, hunfit⟩
          · refine Or.inr ⟨others value :: rest, ?_, .cons hprunes hall⟩
            have hother : (others value).isError = (types value).isError := hprunes.isError_eq
            rw [itemTys?, hother, if_neg hvalue, hrest]
            rfl
        · exact Or.inl ⟨_, List.mem_cons_self, hunfit⟩
    | spread operand =>
      rw [itemTys?] at hmembers
      obtain ⟨own, hown, htail⟩ := Option.bind_eq_some_iff.mp hmembers
      obtain ⟨tys, htys, rfl⟩ := Option.map_eq_some_iff.mp htail
      -- what is spread was inferred without an expectation, so nothing is pruned in it
      have hsame : others operand = types operand := hfirst
      rcases ih hitems htys with ⟨ty, hty, hunfit⟩ | ⟨rest, hrest, hall⟩
      · exact Or.inl ⟨ty, List.mem_append_right _ hty, hunfit⟩
      · refine Or.inr ⟨own ++ rest, ?_, List.rel_append (forall₂_self own) hall⟩
        rw [itemTys?, hsame, hown, Option.bind_some, hrest]
        rfl

/-- **A list of items that are pruned is pruned.** -/
theorem prunedTo_listTy {items : List ListItem} (hok : (listTy types items).isError = false)
    (h : ∀ slot ∈ items.map ListItem.slot, PartPruned kinds types others slot) :
    Ty.PrunedTo kinds (listTy types items) (listTy others items) := by
  cases hmembers : itemTys? types items with
  | none =>
    rw [listTy, hmembers] at hok
    cases hok
  | some members =>
    rw [listTy, listTy, hmembers]
    rcases itemTys?_pruned h hmembers with ⟨ty, hty, hunfit⟩ | ⟨rest, hrest, hall⟩
    · exact Or.inr (.member hty hunfit)
    · rw [hrest]
      exact Or.inl (.tuple hall)

/-! ## Records -/

/-- The name that a field is written under, if it is neither computed nor spread. -/
def RecordField.writtenName? (m : Module) : RecordField → Option String
  | .named name _ => some name
  | .reference value => m.fieldName? value
  | .computed _ _ => none
  | .spread _ => none

/-- No two fields are written under one name, whether it is given or computed. -/
def WritesOnce (m : Module) (name? : ExprId → Option String) (fields : List RecordField) : Prop :=
  (fields.filterMap (RecordField.writtenName? m) ++ keyNamesOf name? fields).Nodup

theorem keyNamesOf_append (name? : ExprId → Option String) (before after : List RecordField) :
    keyNamesOf name? (before ++ after) = keyNamesOf name? before ++ keyNamesOf name? after := by
  induction before with
  | nil => rfl
  | cons field before ih =>
    cases field with
    | computed key value => rw [List.cons_append, keyNamesOf, keyNamesOf, ih, List.append_assoc]
    | _ => exact ih

namespace Checker.Placement

variable {placed other : Placement}

/-- **Every guided part of a record has its place**, if no name is written twice. -/
theorem get?_placement {m : Module} {fields : List RecordField}
    (hok : (placement m types fields).failed = false)
    (honce : WritesOnce m (fun key => keyOf? (types key)) fields) {slot : Slot}
    (hslot : slot ∈ fields.flatMap RecordField.slots) (hguided : slot.guided = true) :
    ∃ name, (placement m types fields).fields.get? name = some ⟨types slot.part, true⟩ := by
  obtain ⟨-, hkeys, hapart⟩ := List.nodup_append.mp honce
  obtain ⟨field, hfield, hslot⟩ := List.mem_flatMap.mp hslot
  -- a field that is not computed keeps its place while computed ones are written
  have hwritten : ∀ (name : Option String) (value : ExprId), Writes m field name value →
      field.writtenName? m = name →
      ∃ key, (placement m types fields).fields.get? key = some ⟨types value, true⟩ := by
    intro name value hwrites hname
    obtain ⟨key, rfl, hget⟩ := get?_written (failed_of_foldl_computed fields hok) hfield hwrites
    have hmem : key ∈ fields.filterMap (RecordField.writtenName? m) :=
      List.mem_filterMap.mpr ⟨field, hfield, hname⟩
    exact ⟨key, (get?_foldl_computed hok fun hkey => hapart key hmem key hkey rfl).trans hget⟩
  cases field with
  | named name value =>
    rw [List.mem_singleton.mp hslot]
    exact hwritten (some name) value (Or.inl ⟨name, rfl, rfl⟩) rfl
  | reference value =>
    rw [List.mem_singleton.mp hslot]
    exact hwritten (m.fieldName? value) value (Or.inr ⟨rfl, rfl⟩) rfl
  | spread operand =>
    rw [List.mem_singleton.mp hslot] at hguided
    cases hguided
  | computed key value =>
    rcases List.mem_cons.mp hslot with rfl | hslot
    · cases hguided
    · rw [List.mem_singleton.mp hslot]
      obtain ⟨before, after, rfl⟩ := List.append_of_mem hfield
      obtain ⟨name, hname, hget⟩ := get?_computed hok
      refine ⟨name, hget ?_⟩
      rw [keyNamesOf_append, keyNamesOf, hname] at hkeys
      exact (List.nodup_cons.mp (List.nodup_append.mp hkeys).2.1).1

/-- A placement with readings dropped, in which nothing has failed. -/
structure Pruned (kinds : List NumericKind) (placed other : Placement) : Prop where
  ok : other.failed = false
  fields : ∀ name, Option.Rel (fun a b : Field => Ty.Prunes kinds a.ty b.ty)
    (placed.fields.get? name) (other.fields.get? name)

theorem Pruned.set (h : Pruned kinds placed other) (name : String) {ty ty' : Ty}
    (hty : Ty.Prunes kinds ty ty') : Pruned kinds (placed.set name ty) (other.set name ty') := by
  refine ⟨h.ok, fun key => ?_⟩
  rw [get?_set, get?_set]
  by_cases hkey : key = name
  · rw [if_pos hkey, if_pos hkey]
    exact .some hty
  · rw [if_neg hkey, if_neg hkey]
    exact h.fields key

/-- What could be put in its place can be, with readings dropped, since the same names are taken. -/
theorem Pruned.put (h : Pruned kinds placed other) {name : String} {ty ty' : Ty}
    (hok : (placed.put name ty).failed = false) (hty : Ty.Prunes kinds ty ty') :
    Pruned kinds (placed.put name ty) (other.put name ty') := by
  obtain ⟨herror, hfree, hput⟩ := put_ok hok
  -- the name is free on both sides
  have hother : other.fields.get? name = none := by
    have hrel := h.fields name
    rw [hfree] at hrel
    cases hget : other.fields.get? name with
    | none => rfl
    | some field =>
      rw [hget] at hrel
      cases hrel
  have hputs : other.put name ty' = other.set name ty' := by
    unfold Placement.put
    rw [hty.isError_eq, herror, Fields.contains, hother]
    rfl
  rw [hput, hputs]
  exact h.set name hty

theorem Pruned.foldl {α : Type} {f g : Placement → α → Placement} {l : List α}
    (hf : ∀ a ∈ l, ∀ placed other, Pruned kinds placed other → (f placed a).failed = false →
      Pruned kinds (f placed a) (g other a))
    (hback : ∀ placed a, (f placed a).failed = false → placed.failed = false)
    (h : Pruned kinds placed other) (hok : (l.foldl f placed).failed = false) :
    Pruned kinds (l.foldl f placed) (l.foldl g other) := by
  induction l generalizing placed other with
  | nil => exact h
  | cons a l ih =>
    -- what failed at one step would have failed at the end
    have hstep : ∀ (rest : List α) (placed : Placement), (rest.foldl f placed).failed = false →
        placed.failed = false := by
      intro rest
      induction rest with
      | nil => exact fun _ h => h
      | cons b rest ihrest => exact fun placed h => hback placed b (ihrest _ h)
    exact ih (fun b hb => hf b (List.mem_cons_of_mem _ hb))
      (hf a List.mem_cons_self placed other h (hstep l _ hok)) hok

theorem Pruned.spread (h : Pruned kinds placed other) {ty : Ty}
    (hok : (placed.spread ty).failed = false) : Pruned kinds (placed.spread ty) (other.spread ty) := by
  unfold Placement.spread at hok ⊢
  split at hok
  · exact h.foldl (fun _ _ _ _ h hok => h.put hok (.self _)) (fun _ _ hok => (keeps_put hok).ok) hok
  · cases hok

theorem Pruned.written (h : Pruned kinds placed other) {m : Module} {field : RecordField}
    (hok : (placed.written m types field).failed = false)
    (hguided : ∀ slot ∈ field.slots, slot.guided = true →
      Ty.Prunes kinds (types slot.part) (others slot.part))
    (hplain : ∀ slot ∈ field.slots, slot.guided = false → others slot.part = types slot.part) :
    Pruned kinds (placed.written m types field) (other.written m others field) := by
  cases field with
  | named name value => exact h.put hok (hguided ⟨value, true⟩ List.mem_cons_self rfl)
  | computed key value => exact h
  | reference value =>
    rw [Placement.written] at hok
    rw [Placement.written, Placement.written]
    cases hname : m.fieldName? value with
    | none =>
      rw [hname] at hok
      cases hok
    | some name =>
      rw [hname] at hok
      exact h.put hok (hguided ⟨value, true⟩ List.mem_cons_self rfl)
  | spread operand =>
    have hsame : others operand = types operand := hplain ⟨operand, false⟩ List.mem_cons_self rfl
    rw [Placement.written, Placement.written, hsame]
    exact h.spread hok

theorem Pruned.computed (h : Pruned kinds placed other) {field : RecordField}
    (hok : (placed.computed types field).failed = false)
    (hguided : ∀ slot ∈ field.slots, slot.guided = true →
      Ty.Prunes kinds (types slot.part) (others slot.part))
    (hplain : ∀ slot ∈ field.slots, slot.guided = false → others slot.part = types slot.part) :
    Pruned kinds (placed.computed types field) (other.computed others field) := by
  cases field with
  | computed key value =>
    obtain ⟨hvalue, name, hname, hset⟩ := computed_ok hok
    have hkey : others key = types key := hplain ⟨key, false⟩ List.mem_cons_self rfl
    have hprunes : Ty.Prunes kinds (types value) (others value) :=
      hguided ⟨value, true⟩ (List.mem_cons_of_mem _ List.mem_cons_self) rfl
    rw [hset, Placement.computed, hprunes.isError_eq, hvalue, hkey, hname]
    exact h.set name hprunes
  | named | reference | spread => exact h

end Checker.Placement

/-- **A record of fields that are pruned is pruned**, if no name is written twice: an unfit value
could be overwritten otherwise. -/
theorem prunedTo_recordTy {m : Module} {fields : List RecordField}
    (hok : (recordTy m types fields).isError = false)
    (honce : WritesOnce m (fun key => keyOf? (types key)) fields)
    (h : ∀ slot ∈ fields.flatMap RecordField.slots, PartPruned kinds types others slot) :
    Ty.PrunedTo kinds (recordTy m types fields) (recordTy m others fields) := by
  have hplaced : (placement m types fields).failed = false := by
    by_contra hfailed
    rw [recordTy, if_pos (by simpa using hfailed)] at hok
    cases hok
  rw [recordTy, if_neg (by simp [hplaced])]
  by_cases hunfit : ∃ slot ∈ fields.flatMap RecordField.slots, slot.guided = true
      ∧ (types slot.part).Unfit kinds
  · -- the part has its place, and nothing declared will take the record because of it
    obtain ⟨slot, hslot, hguided, hunfit⟩ := hunfit
    obtain ⟨name, hget⟩ := Placement.get?_placement hplaced honce hslot hguided
    exact Or.inr (.field hget hunfit)
  · have hguided : ∀ slot ∈ fields.flatMap RecordField.slots, slot.guided = true →
        Ty.Prunes kinds (types slot.part) (others slot.part) := by
      rintro ⟨part, _⟩ hslot rfl
      exact (h _ hslot).resolve_right fun hpart => hunfit ⟨_, hslot, rfl, hpart⟩
    have hplain : ∀ slot ∈ fields.flatMap RecordField.slots, slot.guided = false →
        others slot.part = types slot.part := by
      rintro ⟨part, _⟩ hslot rfl
      exact h _ hslot
    have hmem : ∀ field ∈ fields, ∀ slot ∈ field.slots, slot ∈ fields.flatMap RecordField.slots :=
      fun field hfield slot hslot => List.mem_flatMap.mpr ⟨field, hfield, hslot⟩
    have hnone : Placement.Pruned kinds ⟨.nil, false⟩ ⟨.nil, false⟩ := ⟨rfl, fun _ => .none⟩
    have hwritten := hnone.foldl (g := Placement.written m others)
      (fun field hfield _ _ h hok => h.written hok
        (fun slot hslot => hguided slot (hmem field hfield slot hslot))
        fun slot hslot => hplain slot (hmem field hfield slot hslot))
      (fun _ _ hok => (Placement.keeps_written hok).ok)
      (Placement.failed_of_foldl_computed fields hplaced)
    have hpruned : Placement.Pruned kinds (placement m types fields) (placement m others fields) :=
      hwritten.foldl
        (fun field hfield _ _ h hok => h.computed hok
          (fun slot hslot => hguided slot (hmem field hfield slot hslot))
          fun slot hslot => hplain slot (hmem field hfield slot hslot))
        (fun _ _ hok => Placement.failed_of_computed hok) hplaced
    rw [recordTy, if_neg (by simp [hpruned.ok])]
    exact Or.inl (.record hpruned.fields)

end Parts

/-! ## All expressions -/

section Whole

variable {p : Program} {given : ConstId → Ty} {scope : ScopeId} {types others : ExprId → Ty}

theorem itemTys?_congr {items : List ListItem}
    (h : ∀ item ∈ items, others item.expr = types item.expr) :
    itemTys? others items = itemTys? types items := by
  induction items with
  | nil => rfl
  | cons item items ih =>
    obtain ⟨hfirst, hrest⟩ := List.forall_mem_cons.mp h
    cases item with
    | member value =>
      have hvalue : others value = types value := hfirst
      rw [itemTys?, itemTys?, hvalue, ih hrest]
    | spread operand =>
      have hoperand : others operand = types operand := hfirst
      rw [itemTys?, itemTys?, hoperand, ih hrest]

theorem placement_congr {m : Module} {fields : List RecordField}
    (h : ∀ field ∈ fields, ∀ e ∈ field.exprs, others e = types e) :
    placement m others fields = placement m types fields := by
  have hwritten : fields.foldl (Placement.written m others) ⟨.nil, false⟩
      = fields.foldl (Placement.written m types) ⟨.nil, false⟩ := by
    refine List.foldl_ext _ _ _ fun placed field hfield => ?_
    have hparts := h field hfield
    cases field <;> simp_all [Placement.written, RecordField.exprs]
  rw [placement, placement, hwritten]
  refine List.foldl_ext _ _ _ fun placed field hfield => ?_
  have hparts := h field hfield
  cases field <;> simp_all [Placement.computed, RecordField.exprs]

/-- What is inferred depends on the literals and on the types of the parts. -/
theorem inferStep_congr {before after : Bool} {expected : Option Ty} {e : Expr}
    (hliteral : ∀ literal, literalTy (p.pruning after) literal expected
      = literalTy (p.pruning before) literal expected)
    (h : ∀ part ∈ e.children, others part = types part) :
    inferStep (p.pruning after) given scope expected others e
      = inferStep (p.pruning before) given scope expected types e := by
  cases e with
  | missing | unsupported => rfl
  | literal literal => exact hliteral literal
  | reference source name => cases source <;> rfl
  | list items =>
    rw [inferStep, inferStep, listTy, listTy,
      itemTys?_congr fun item hitem => h _ (List.mem_map_of_mem hitem)]
  | record fields =>
    have hplacement : placement p.source others fields = placement p.source types fields :=
      placement_congr fun field hfield e he => h e (List.mem_flatMap.mpr ⟨field, hfield, he⟩)
    show recordTy p.source others fields = recordTy p.source types fields
    rw [recordTy, recordTy, hplacement]
  | binary op lhs rhs =>
    rw [inferStep, inferStep, h lhs List.mem_cons_self,
      h rhs (List.mem_cons_of_mem _ List.mem_cons_self)]
  | unary op operand => rw [inferStep, inferStep, h operand List.mem_cons_self]
  | group inner => exact h inner List.mem_cons_self

variable {s t : Checker} {expected : Option Ty} {id : ExprId} {ty other : Ty}

/-- **Where literals are the same, so is what is inferred.** -/
theorem Held.eq_of_literals {before after : Bool}
    (h : Held (p.pruning before) given scope s expected id ty)
    (h' : Held (p.pruning after) given scope t expected id other)
    (hliteral : ∀ literal, literalTy (p.pruning after) literal expected
      = literalTy (p.pruning before) literal expected) : other = ty := by
  induction h generalizing other with
  | @intro expected id ty types hty _ _ _ ih =>
    cases h' with
    | intro others hother parts' _ _ =>
      rw [hother, hty]
      refine inferStep_congr hliteral fun part hpart => ?_
      rw [← Expr.map_part_slots] at hpart
      obtain ⟨slot, hslot, rfl⟩ := List.mem_map.mp hpart
      refine ih slot hslot (parts' slot hslot) fun literal => ?_
      -- a part shares the expectation, or has none, and then its literals are the same anyway
      cases hguided : slot.guided with
      | true =>
        rw [Slot.expects, hguided]
        exact hliteral literal
      | false =>
        rw [Slot.expects, hguided]
        exact (literalTy_unexpected p literal after).trans (literalTy_unexpected p literal before).symm

theorem Held.eq_of_unexpected {before after : Bool}
    (h : Held (p.pruning before) given scope s none id ty)
    (h' : Held (p.pruning after) given scope t none id other) : other = ty :=
  h.eq_of_literals h' fun literal =>
    (literalTy_unexpected p literal after).trans (literalTy_unexpected p literal before).symm

theorem WritesOnce.congr {m : Module} {name? other? : ExprId → Option String}
    {fields : List RecordField} (h : WritesOnce m name? fields)
    (hname : ∀ key ∈ fields.filterMap RecordField.key?, name? key = other? key) :
    WritesOnce m other? fields := by
  rw [WritesOnce, ← keyNamesOf_congr hname]
  exact h

/-- What becomes of an expression, where each part is pruned. -/
theorem prunedTo_inferStep {declared : Ty} (hkinds : declared.numericKinds ≠ []) {e : Expr}
    (hok : (inferStep (p.pruning false) given scope (some declared) types e).isError = false)
    (hparts : ∀ slot ∈ e.slots, PartPruned declared.numericKinds types others slot)
    (hoperand : ∀ slot ∈ e.slots, (types slot.part).IsOperand)
    (hoperand' : ∀ slot ∈ e.slots, (others slot.part).IsOperand)
    (honce : ∀ fields, e = .record fields →
      WritesOnce p.source (fun key => keyOf? (types key)) fields) :
    Ty.PrunedTo declared.numericKinds
      (inferStep (p.pruning false) given scope (some declared) types e)
      (inferStep (p.pruning true) given scope (some declared) others e) := by
  cases e with
  | missing | unsupported => cases hok
  | literal literal => exact prunedTo_literalTy p literal hkinds hok
  | reference source name => cases source <;> exact Or.inl (.self _)
  | list items => exact prunedTo_listTy hok hparts
  | record fields => exact prunedTo_recordTy hok (honce fields rfl) hparts
  | binary op lhs rhs =>
    have hrhs : (⟨rhs, true⟩ : Slot) ∈ (Expr.binary op lhs rhs).slots :=
      List.mem_cons_of_mem _ List.mem_cons_self
    exact prunedTo_binaryTy hok (hoperand ⟨lhs, true⟩ List.mem_cons_self) (hoperand _ hrhs)
      (hparts ⟨lhs, true⟩ List.mem_cons_self) (hparts _ hrhs)
  | unary op operand =>
    have hslot : (⟨operand, true⟩ : Slot) ∈ (Expr.unary op operand).slots := List.mem_cons_self
    exact prunedTo_unaryTy hok (hoperand _ hslot) (hoperand' _ hslot) (hparts _ hslot)
  | group inner => exact hparts ⟨inner, true⟩ List.mem_cons_self

/-- **What is inferred with the readings of the expected kinds is what is inferred with all readings,
less the others.** The names of computed keys are given by `name?`. -/
theorem Held.prunedTo {declared : Ty} (hkinds : declared.numericKinds ≠ [])
    {name? : ExprId → Option String}
    (hname : ∀ key ty, p.source.Within id key → Held (p.pruning false) given scope s none key ty →
      name? key = keyOf? ty)
    (honce : ∀ e fields, p.source.Within id e → p.source.expr e = .record fields →
      WritesOnce p.source name? fields)
    (h : Held (p.pruning false) given scope s expected id ty) (hexpected : expected = some declared)
    (h' : Held (p.pruning true) given scope t expected id other) (hok : ty.isError = false) :
    ty.PrunedTo declared.numericKinds other := by
  induction h generalizing other with
  | @intro expected id ty types hty parts _ _ ih =>
    cases h' with
    | intro others hother parts' _ _ =>
      subst hexpected
      rw [hty] at hok ⊢
      rw [hother]
      have hwithin : ∀ slot ∈ (p.source.expr id).slots, p.source.Part id slot.part :=
        fun slot hslot => Expr.part_mem_children hslot
      refine prunedTo_inferStep hkinds hok ?_ (fun slot hslot => (parts slot hslot).isOperand)
        (fun slot hslot => (parts' slot hslot).isOperand) fun fields hexpr => ?_
      · rintro ⟨part, guided⟩ hslot
        have hpart := hwithin _ hslot
        cases guided with
        | true =>
          exact ih _ hslot (fun key ty hkey => hname key ty (.head hpart hkey))
            (fun e fields he => honce e fields (.head hpart he)) rfl (parts' _ hslot)
            (isError_of_inferStep hok part hpart)
        | false => exact (parts _ hslot).eq_of_unexpected (parts' _ hslot)
      · -- a key is evaluated on its own, so its name is the one that is given
        refine (honce id fields .refl hexpr).congr fun key hkey => ?_
        have hslot : ⟨key, false⟩ ∈ (p.source.expr id).slots :=
          Expr.slot_of_mem_keys (by rw [show p.source.expr id = .record fields from hexpr]; exact hkey)
        exact hname key _ (.single (hwithin _ hslot)) (parts _ hslot)

end Whole

end ConstNarrow
