/-
**Operators on readings.**

An operator is defined on operands of one domain, and its value lies in that domain. Of a choice on
either side at most one pair of readings therefore counts in each domain, and what an operator makes
of two choices is a choice again: the value in a domain comes from the readings in that domain.
-/
import ConstNarrow.Proofs.Discipline
import ConstNarrow.Proofs.Readings

set_option autoImplicit false

namespace ConstNarrow

open Checker

/-! ## Domains of operators -/

theorem Primitive.domain_of_numericKind? {p : Primitive} {kind : NumericKind}
    (h : p.numericKind? = some kind) : p.domain = kind.toPrimitive := by
  rw [domain, h]

namespace BinaryOp

theorem commonKind?_eq_some {a b : Primitive} {kind : NumericKind} (h : commonKind? a b = some kind) :
    a.numericKind? = some kind ∧ b.numericKind? = some kind := by
  obtain ⟨ha, hb⟩ := Option.filter_eq_some_iff.mp h
  exact ⟨ha, beq_iff_eq.mp hb⟩

/-- Both operands lie in the domain of the result. -/
theorem domain_of_resultBase? {op : BinaryOp} {a b k : Primitive} (h : op.resultBase? a b = some k) :
    a.domain = k ∧ b.domain = k := by
  unfold resultBase? at h
  split at h
  · cases h
    exact ⟨rfl, rfl⟩
  · obtain ⟨kind, hkind, rfl⟩ := Option.map_eq_some_iff.mp h
    obtain ⟨ha, hb⟩ := commonKind?_eq_some hkind
    exact ⟨Primitive.domain_of_numericKind? ha, Primitive.domain_of_numericKind? hb⟩
  · split at h
    · rename_i hkind
      cases h
      obtain ⟨ha, hb⟩ := commonKind?_eq_some hkind
      exact ⟨Primitive.domain_of_numericKind? ha, Primitive.domain_of_numericKind? hb⟩
    · cases h
  · cases h
    exact ⟨rfl, rfl⟩
  · cases h

/-- Bytes are operands as integers are. -/
theorem resultBase?_domain (op : BinaryOp) (a b : Primitive) :
    op.resultBase? a.domain b.domain = op.resultBase? a b := by
  have hkind : commonKind? a.domain b.domain = commonKind? a b := by
    rw [commonKind?, commonKind?, Primitive.numericKind?_domain, Primitive.numericKind?_domain]
  cases op with
  | arith op => cases op <;> cases a <;> cases b <;> rfl
  | bit op => rw [resultBase?, resultBase?, hkind]
  | logic op => cases a <;> cases b <;> rfl

/-- The value lies in the domain that it is computed in. -/
theorem naturalBase_of_fold? {op : BinaryOp} {a b v : Scalar} {k : Primitive}
    (h : op.fold? a b k = some v) : v.naturalBase = k := by
  unfold fold? at h
  split at h
  · obtain ⟨i, -, rfl⟩ := Option.map_eq_some_iff.mp h
    rfl
  · cases h
    rfl
  · obtain ⟨d, -, rfl⟩ := Option.map_eq_some_iff.mp h
    rfl
  · cases h
    rfl
  · cases h
    rfl
  · cases h
    rfl
  · cases h

end BinaryOp

namespace UnaryOp

theorem domain_of_resultBase? {op : UnaryOp} {a k : Primitive} (h : op.resultBase? a = some k) :
    a.domain = k := by
  cases op with
  | plus | minus =>
    obtain ⟨kind, hkind, rfl⟩ := Option.map_eq_some_iff.mp h
    exact Primitive.domain_of_numericKind? hkind
  | complement =>
    rw [resultBase?] at h
    split at h
    · rename_i hkind
      cases h
      exact Primitive.domain_of_numericKind? hkind
    · cases h
  | not =>
    rw [resultBase?] at h
    split at h
    · rename_i heq
      cases h
      rw [heq]
      rfl
    · cases h

theorem resultBase?_domain (op : UnaryOp) (a : Primitive) :
    op.resultBase? a.domain = op.resultBase? a := by
  cases op <;> cases a <;> rfl

/-- The value lies in the domain of the operand. -/
theorem naturalBase_of_fold? {op : UnaryOp} {a v : Scalar} (h : op.fold? a = some v) :
    v.naturalBase = a.naturalBase := by
  unfold fold? at h
  split at h
  · cases h
    rfl
  · cases h
    rfl
  · cases h
    rfl
  · obtain ⟨i, -, rfl⟩ := Option.map_eq_some_iff.mp h
    rfl
  · cases h
    rfl
  · cases h
    rfl
  · cases h
    rfl
  · cases h
    rfl
  · cases h

end UnaryOp

/-! ## Operands -/

theorem readingsOf?_ofValues (values : List Singleton) :
    readingsOf? (Ty.ofValues values) = some values := by
  rw [readingsOf?, Ty.effective_ofValues, Ty.unionMembers_ofValues]
  exact Ty.mapM_singleton? values

/-- A tentative type whose single values stand under primitives of their own domain. -/
structure Ty.IsOperand (ty : Ty) : Prop where
  tentative : ty.Tentative
  coherent : ∀ s, ty = Ty.singleton s → s.IsCoherent

namespace Ty.IsOperand

theorem error : IsOperand .error := ⟨.error, fun _ h => (by cases h)⟩

theorem tuple {members : List Ty} (h : ∀ ty ∈ members, Tentative ty) :
    IsOperand (.tuple members none) :=
  ⟨.tuple h, fun _ h => (by cases h)⟩

theorem record {fields : Fields none}
    (h : ∀ entry ∈ fields.toList, entry.2.required = true ∧ Tentative entry.2.ty) :
    IsOperand (sealedRecord fields) :=
  ⟨.record (fun entry he => (h entry he).1) fun entry he => (h entry he).2, fun _ h => (by cases h)⟩

/-- A choice of values under their own primitives is an operand. -/
theorem ofNatural {values : List Singleton} (h : IsChoice values)
    (hnatural : ∀ s ∈ values, s = .ofScalar s.value) : IsOperand (ofValues values) := by
  refine ⟨.choice h, fun s hs => ?_⟩
  have hvalues : values = [s] := ofValues_injective hs
  rw [hnatural s (hvalues ▸ List.mem_singleton_self s)]
  exact Singleton.isCoherent_ofScalar _

/-- The readings of an operand. -/
theorem readings {ty : Ty} {values : List Singleton} (h : ty.IsOperand)
    (hvalues : readingsOf? ty = some values) :
    IsChoice values ∧ (∀ s ∈ values, s.IsCoherent) ∧ ty = ofValues values := by
  cases h.tentative with
  | @choice readings hchoice =>
    rw [readingsOf?_ofValues] at hvalues
    cases hvalues
    refine ⟨hchoice, fun s hs => ?_, rfl⟩
    -- one value is coherent by assumption, and several stand under their own primitives
    by_cases hone : values.length = 1
    · obtain ⟨t, rfl⟩ := List.length_eq_one_iff.mp hone
      rw [List.mem_singleton.mp hs]
      exact h.coherent t rfl
    · rw [hchoice.natural hone s hs]
      exact Singleton.isCoherent_ofScalar _
  | tuple _ | record _ _ | table | anydata | error => cases hvalues

end Ty.IsOperand

/-! ## Values that are folded -/

/-- The type of folded values, which is the error type if there is none. -/
def foldedTy (values : List Scalar) : Ty :=
  if values.isEmpty then .error else .unionOf (values.map fun v => .singleton (.ofScalar v))

/-- No two of the values lie in one domain. -/
def Scalar.Apart (values : List Scalar) : Prop :=
  values.Pairwise fun a b => a.naturalBase ≠ b.naturalBase

namespace Scalar.Apart

variable {values : List Scalar}

/-- Values of different domains are a choice, if there are any. -/
theorem isChoice (h : Apart values) (hne : values ≠ []) :
    Ty.IsChoice (values.map Singleton.ofScalar) := by
  refine Ty.isChoice_of_natural (by simpa using hne) ?_ ?_
  · rw [List.pairwise_map]
    refine h.imp fun {a b} hab => ?_
    rw [Singleton.ofScalar, Singleton.ofScalar, domain_naturalBase, domain_naturalBase]
    exact hab
  · intro s hs
    obtain ⟨v, -, rfl⟩ := List.mem_map.mp hs
    rfl

theorem foldedTy_eq (h : Apart values) (hne : values ≠ []) :
    foldedTy values = Ty.ofValues (values.map Singleton.ofScalar) := by
  have hmap : (values.map fun v => Ty.singleton (.ofScalar v))
      = (values.map Singleton.ofScalar).map Ty.singleton := by
    rw [List.map_map]
    rfl
  rw [foldedTy, if_neg (by simpa using hne), hmap]
  exact Ty.unionOf_singletons_eq (h.isChoice hne).ne_nil (h.isChoice hne).apart

/-- If there is a value at all, the type is a choice. -/
theorem foldedTy_ok (h : Apart values) (hok : (foldedTy values).isError = false) :
    Ty.IsChoice (values.map Singleton.ofScalar)
      ∧ foldedTy values = Ty.ofValues (values.map Singleton.ofScalar) := by
  have hne : values ≠ [] := by
    rintro rfl
    cases hok
  exact ⟨h.isChoice hne, h.foldedTy_eq hne⟩

theorem isOperand_foldedTy (h : Apart values) : (foldedTy values).IsOperand := by
  by_cases hne : values = []
  · subst hne
    exact Ty.IsOperand.error
  · rw [h.foldedTy_eq hne]
    refine .ofNatural (h.isChoice hne) fun s hs => ?_
    obtain ⟨v, -, rfl⟩ := List.mem_map.mp hs
    rfl

end Scalar.Apart

theorem nodup_eraseDups {α : Type} [BEq α] [LawfulBEq α] : (l : List α) → l.eraseDups.Nodup
  | [] => by simp
  | a :: l => by
    rw [List.eraseDups_cons]
    refine List.nodup_cons.mpr ⟨fun hmem => ?_, nodup_eraseDups (l.filter fun b => !b == a)⟩
    have hfilter := (List.mem_filter.mp (List.mem_eraseDups.mp hmem)).2
    simp at hfilter
termination_by l => l.length
decreasing_by exact Nat.lt_succ_of_le (List.length_filter_le _ _)

namespace BinaryOp

variable {op : BinaryOp} {ls rs : List Singleton}

/-- The values of an operator on readings: of the first combination for each result base. -/
def values (op : BinaryOp) (ls rs : List Singleton) : List Scalar :=
  ((combinations op ls rs).map Combination.base).eraseDups.filterMap fun base =>
    ((combinations op ls rs).find? (·.base == base)).bind fun c =>
      op.fold? c.lhs.value c.rhs.value base

/-- A combination is a pair of readings for which the operator is defined. -/
theorem mem_combinations {c : Combination} :
    c ∈ combinations op ls rs ↔
      c.lhs ∈ ls ∧ c.rhs ∈ rs ∧ op.resultBase? c.lhs.base c.rhs.base = some c.base := by
  simp only [combinations, List.mem_flatMap, List.mem_filterMap, Option.map_eq_some_iff]
  constructor
  · rintro ⟨l, hl, r, hr, base, hbase, rfl⟩
    exact ⟨hl, hr, hbase⟩
  · rintro ⟨hl, hr, hbase⟩
    exact ⟨c.lhs, hl, c.rhs, hr, c.base, hbase, rfl⟩

/-- There is one value for each result base, so no two lie in one domain. -/
theorem apart_values (op : BinaryOp) (ls rs : List Singleton) : Scalar.Apart (op.values ls rs) := by
  refine List.pairwise_filterMap.mpr ((nodup_eraseDups _).imp fun {a b} hab v hv w hw => ?_)
  obtain ⟨c, -, hv⟩ := Option.bind_eq_some_iff.mp hv
  obtain ⟨d, -, hw⟩ := Option.bind_eq_some_iff.mp hw
  rw [naturalBase_of_fold? hv, naturalBase_of_fold? hw]
  exact hab

/-- **An operator has the values of all pairs of readings**, if there is one reading in a domain on
either side: then there is one pair in a domain, so the first one is the only one. -/
theorem mem_values_of_unique (hls : ∀ s ∈ ls, ∀ t ∈ ls, s.base.domain = t.base.domain → s = t)
    (hrs : ∀ s ∈ rs, ∀ t ∈ rs, s.base.domain = t.base.domain → s = t) {v : Scalar} :
    v ∈ op.values ls rs ↔ ∃ l ∈ ls, ∃ r ∈ rs, ∃ k, op.resultBase? l.base r.base = some k
      ∧ op.fold? l.value r.value k = some v := by
  rw [values, List.mem_filterMap]
  constructor
  · rintro ⟨base, -, hvalue⟩
    obtain ⟨c, hc, hfold⟩ := Option.bind_eq_some_iff.mp hvalue
    obtain ⟨hl, hr, hbase⟩ := mem_combinations.mp (List.mem_of_find?_eq_some hc)
    have hsame : c.base = base := by simpa using List.find?_some hc
    exact ⟨c.lhs, hl, c.rhs, hr, base, hsame ▸ hbase, hfold⟩
  · rintro ⟨l, hl, r, hr, k, hk, hfold⟩
    have hmem : (⟨l, r, k⟩ : Combination) ∈ combinations op ls rs := mem_combinations.mpr ⟨hl, hr, hk⟩
    refine ⟨k, List.mem_eraseDups.mpr (List.mem_map_of_mem (f := Combination.base) hmem), ?_⟩
    cases hfind : (combinations op ls rs).find? (·.base == k) with
    | none => simpa using List.find?_eq_none.mp hfind _ hmem
    | some c =>
      obtain ⟨hcl, hcr, hbase⟩ := mem_combinations.mp (List.mem_of_find?_eq_some hfind)
      have hck : c.base = k := by simpa using List.find?_some hfind
      rw [hck] at hbase
      -- both pairs lie in the domain of the base, so they are one pair
      obtain ⟨hldomain, hrdomain⟩ := domain_of_resultBase? hk
      obtain ⟨hcldomain, hcrdomain⟩ := domain_of_resultBase? hbase
      rw [Option.bind_some, hls _ hcl l hl (hcldomain.trans hldomain.symm),
        hrs _ hcr r hr (hcrdomain.trans hrdomain.symm)]
      exact hfold

/-- So has an operator on two choices. -/
theorem mem_values (hls : Ty.IsChoice ls) (hrs : Ty.IsChoice rs) {v : Scalar} :
    v ∈ op.values ls rs ↔ ∃ l ∈ ls, ∃ r ∈ rs, ∃ k, op.resultBase? l.base r.base = some k
      ∧ op.fold? l.value r.value k = some v :=
  mem_values_of_unique (fun _ hs _ ht => hls.eq_of_domain hs ht) fun _ hs _ ht => hrs.eq_of_domain hs ht

end BinaryOp

namespace UnaryOp

variable {op : UnaryOp} {rs : List Singleton}

/-- The readings that an operator is defined for. -/
def applicable (op : UnaryOp) (rs : List Singleton) : List Singleton :=
  rs.filter fun s => (op.resultBase? s.base).isSome

/-- The values of an operator on readings. -/
def values (op : UnaryOp) (rs : List Singleton) : List Scalar :=
  (op.applicable rs).filterMap fun s => op.fold? s.value

/-- The values are those of all readings for which the operator is defined. -/
theorem mem_values {v : Scalar} : v ∈ op.values rs ↔ ∃ s ∈ rs, ∃ k, op.resultBase? s.base = some k
    ∧ op.fold? s.value = some v := by
  simp only [values, applicable, List.mem_filterMap, List.mem_filter, Option.isSome_iff_exists]
  constructor
  · rintro ⟨s, ⟨hs, k, hk⟩, hv⟩
    exact ⟨s, hs, k, hk, hv⟩
  · rintro ⟨s, hs, k, hk, hv⟩
    exact ⟨s, ⟨hs, k, hk⟩, hv⟩

/-- Values stay in the domains of the readings, which are different. -/
theorem apart_values (hrs : Ty.IsChoice rs) (hcoherent : ∀ s ∈ rs, s.IsCoherent) :
    Scalar.Apart (op.values rs) := by
  refine List.pairwise_filterMap.mpr ?_
  have happlicable : (op.applicable rs).Sublist rs := List.filter_sublist
  refine (hrs.apart.sublist happlicable).imp_of_mem fun {a b} ha hb hab v hv w hw => ?_
  rw [naturalBase_of_fold? hv, naturalBase_of_fold? hw,
    ← hcoherent a (happlicable.subset ha), ← hcoherent b (happlicable.subset hb)]
  exact hab

end UnaryOp

end ConstNarrow
