/-
**Committed constants**: what the tables of a finished check hold for the values of constants.

Three results about forests. With declared types that hold no error, operators have the value that
they make of their operands, and no expression is left with a choice. With any declared types, the
commitment to the final types logs no violation. Each has its limits, and a program for each of them
stands next to it:

* a record that writes a computed key twice commits the last type to both fields;
* a list or record in parentheses keeps what was inferred for it;
* a byte that is chosen from several readings stays an integer in the tables;
* an expression that stands in two places has one type only.
-/
import ConstNarrow.Proofs.Ambiguity
import ConstNarrow.Proofs.Passages

set_option autoImplicit false

namespace ConstNarrow

open Checker

variable {p : Program}

/-! ## All constants at the end -/

/-- At the end every constant has its final type. If that is no error, its value is committed. -/
theorem Advance.committed_at_end {s : Checker} (hnames : p.source.NamesExist)
    (h : Advance p false p.source.groups s) {id : ConstId} {constant : Constant}
    (hconstant : p.source.constants[id]? = some constant) :
    ∃ ty, s.finish.constTypes.get? id = some ty
      ∧ (ty.isError = false → Committed p s constant.value) := by
  obtain ⟨hlt, -⟩ := Array.getElem?_eq_some_iff.mp hconstant
  obtain ⟨group, hgroup, hid⟩ := Module.exists_group hnames hlt
  obtain ⟨ty, hstatus⟩ := h.resolved group hgroup id hid
  exact ⟨ty, constTypes_get? s hstatus, fun herror =>
    h.committed id constant ty hconstant hstatus herror rfl⟩

/-! ## Operators -/

/-- **The committed tree is coherent.** In a forest, with declared types that hold no error, every
operator in the value of a constant that is not erroneous has a single value, which is what it makes
of the single values of its operands, and its signature shows their bases. Left out is what stands
in a field whose computed key is written again later. -/
theorem operators_are_computed (p : Program) (hnames : p.source.NamesExist) (hforest : p.source.Forest)
    (hdeclared : p.DeclaresOnly Ty.isNoError)
    (himports : p.ImportsOnly (Ty.isConcrete Singleton.isProper)) (hwildcard : p.NoWildcard) :
    ∃ s, p.run = some s ∧ p.check = some s.finish
      ∧ ∀ id constant, p.source.constants[id]? = some constant →
        ∃ ty, s.finish.constTypes.get? id = some ty ∧ (ty ≠ .error →
          ∀ e, LastsWithin p s constant.value e → Computed s e (p.source.expr e)) := by
  have hp : p.Regular false := ⟨hnames, hforest, hdeclared, himports, fun _ => hwildcard⟩
  obtain ⟨s, hrun, hcheck, h⟩ := exists_advance hp
  refine ⟨s, hrun, hcheck, fun id constant hconstant => ?_⟩
  obtain ⟨ty, hty, hcommitted⟩ := h.committed_at_end hnames hconstant
  exact ⟨ty, hty, fun hne e he => (hcommitted (Ty.isError_eq_false hne) e he).computed⟩

/-- `rate = 0.5` and, as numbers of either kind,
`totals = {["a"]: [(1 + 2) * rate, -3], ["b"]: []}`. -/
def totals : Program where
  source := Module.empty
    |>.addExpr (.literal (.float "0.5"))
    |>.addConstant ⟨"rate", Module.root, 0, none⟩
    |>.addExpr (.literal (.int "1"))
    |>.addExpr (.literal (.int "2"))
    |>.addExpr (.binary (.arith .add) 1 2)
    |>.addExpr (.group 3)
    |>.addExpr (.reference none "rate")
    |>.addExpr (.binary (.arith .mul) 4 5)
    |>.addExpr (.literal (.int "3"))
    |>.addExpr (.unary .minus 7)
    |>.addExpr (.list [.member 6, .member 8])
    |>.addExpr (.literal (.string "a"))
    |>.addExpr (.literal (.string "b"))
    |>.addExpr (.list [])
    |>.addExpr (.record [.computed 10 9, .computed 11 12])
    |>.addConstant ⟨"totals", Module.root, 13,
      some (.map (.array (.union [.primitive .float, .primitive .decimal]) .unbounded))⟩
  imports := []
  settings := .default

theorem totals_namesExist : totals.source.NamesExist :=
  Module.Built.namesExist (Module.Built.empty |>.expr _ |>.constant _ |>.expr _ |>.expr _ |>.expr _
    |>.expr _ |>.expr _ |>.expr _ |>.expr _ |>.expr _ |>.expr _ |>.expr _ |>.expr _ |>.expr _
    |>.expr _ |>.constant _)

theorem totals_forest : totals.source.Forest := Module.forest_of_nodup (by decide)

theorem totals_noWildcard : totals.NoWildcard :=
  Module.forall_expr (P := fun e => e ≠ .reference none Module.wildcardName) (by decide) (by decide)

section

variable {s : Checker}

/-- Neither constant is erroneous, and the two keys differ. -/
theorem totals_fine : (totals.run.map fun s => ((s.finish.constTypes.get? 1).map Ty.isError,
    keyNamesOf s.keyName [.computed 10 9, .computed 11 12])) = some (some false, ["a", "b"]) := by
  decide +kernel

theorem totals_ne_error (hrun : totals.run = some s) {ty : Ty}
    (hty : s.finish.constTypes.get? 1 = some ty) : ty ≠ .error := by
  have hfine := totals_fine
  rw [hrun, Option.map_some, hty] at hfine
  rintro rfl
  cases hfine

theorem totals_keys (hrun : totals.run = some s) {e : ExprId} {fields : List RecordField}
    (hexpr : totals.source.expr e = .record fields) : (keyNamesOf s.keyName fields).Nodup := by
  have honly : fields = [.computed 10 9, .computed 11 12] := by
    refine Module.forall_expr (m := totals.source)
      (P := fun other => other = .record fields → fields = [.computed 10 9, .computed 11 12]) ?_
      (fun h => (by cases h)) e hexpr
    simp [totals, Module.addExpr, Module.addConstant, Module.define, Module.empty, eq_comm]
  have hfine := totals_fine
  rw [hrun, Option.map_some, Option.some.injEq, Prod.mk.injEq] at hfine
  rw [honly, hfine.2]
  decide

theorem totals_distinct (hrun : totals.run = some s) : Distinct totals.source s 13 :=
  fun _ _ _ hexpr => totals_keys hrun hexpr

theorem totals_within_six : totals.source.Within 13 6 :=
  .tail (.tail .refl (show 9 ∈ (totals.source.expr 13).children by decide))
    (show 6 ∈ (totals.source.expr 9).children by decide)

end

/-- The product in the list has the value of its factors, as a float. -/
theorem totals_computed : ∃ s, totals.run = some s ∧ Computed s 6 (.binary (.arith .mul) 4 5) := by
  obtain ⟨s, hrun, -, hall⟩ := operators_are_computed totals totals_namesExist totals_forest
    (by unfold Program.DeclaresOnly; decide) (fun _ h => (by cases h)) totals_noWildcard
  obtain ⟨ty, hty, hcomputed⟩ := hall 1 _ rfl
  refine ⟨s, hrun, hcomputed (totals_ne_error hrun hty) 6 ?_⟩
  exact (totals_distinct hrun).lastsWithin totals_within_six

/-- `x : string = [-1]`, and `y = [...]` with the very same list spread into it. -/
def respread : Program where
  source := Module.empty
    |>.addExpr (.literal (.int "1"))
    |>.addExpr (.unary .minus 0)
    |>.addExpr (.list [.member 1])
    |>.addExpr (.list [.spread 2])
    |>.addConstant ⟨"x", Module.root, 2, some (.primitive .string)⟩
    |>.addConstant ⟨"y", Module.root, 3, none⟩
  imports := []
  settings := .default

/-- That every expression is a part of one other at most is not enough. The list keeps the type that
it got as the value of the first constant, and with it three readings for the number. -/
theorem respread_not_computed :
    ((∀ a b e, respread.source.Part a e → respread.source.Part b e → a = b)
      ∧ (respread.source.constants.toList.map Constant.value).Nodup ∧ respread.source.NamesExist
      ∧ respread.DeclaresOnly Ty.isNoError
      ∧ respread.ImportsOnly (Ty.isConcrete Singleton.isProper) ∧ respread.NoWildcard)
    ∧ ∃ s, respread.run = some s
      ∧ s.finish.constTypes.get? 1 = some (.tuple [.singleton (.ofScalar (.int (-1)))] none)
      ∧ LastsWithin respread s 3 1 ∧ ¬ Computed s 1 (respread.source.expr 1) := by
  refine ⟨⟨(Module.parent_of_nodup (by decide)).2, by decide,
    Module.Built.namesExist (Module.Built.empty |>.expr _ |>.expr _ |>.expr _ |>.expr _
      |>.constant _ |>.constant _), by unfold Program.DeclaresOnly; decide,
    fun _ h => (by cases h), ?_⟩, _, rfl, rfl, ?_, ?_⟩
  · exact Module.forall_expr (P := fun e => e ≠ .reference none Module.wildcardName) (by decide)
      (by decide)
  · exact .tail (.tail .refl (show 2 ∈ [2] by decide)) (show 1 ∈ [1] by decide)
  · rintro ⟨v, a, hv, -⟩
    cases hv

/-! ## Violations -/

/-- **A violation needs a computed key that is written twice.** In a forest, whatever types are
declared and however the check is set up, it comes to an end, and unless a record writes a computed
key twice, every list finds a list type, every record a record type, every item and field its part
of it, and every choice a reading. -/
theorem violations_need_rewritten_keys (p : Program) (hnames : p.source.NamesExist)
    (hforest : p.source.Forest) (himports : p.ImportsOnly (Ty.isConcrete Singleton.isProper)) :
    ∃ s, p.run = some s ∧ p.check = some s.finish
      ∧ ∀ v, .violated v ∈ s.journal.log.toList → ∃ e fields, p.source.Used e
        ∧ p.source.expr e = .record fields ∧ ¬ (keyNamesOf s.keyName fields).Nodup := by
  have hp : p.Regular true :=
    ⟨hnames, hforest, fun _ _ ty _ => Discipline.everywhere_true ty, himports, fun h => (by cases h)⟩
  obtain ⟨s, hrun, hcheck, h⟩ := exists_advance hp
  refine ⟨s, hrun, hcheck, fun v hv => ?_⟩
  -- otherwise all keys are distinct, and the check is quiet
  by_contra hnone
  refine h.quiet (fun id constant ty hconstant _ e fields he hexpr => ?_) v hv
  by_contra htwice
  exact hnone ⟨e, fields, ⟨constant, Array.mem_of_getElem? hconstant, he⟩, hexpr, htwice⟩

/-- With two keys that differ, there is none. -/
theorem totals_unviolated : ∃ s, totals.run = some s ∧ ∀ v, .violated v ∉ s.journal.log.toList := by
  obtain ⟨s, hrun, -, hall⟩ := violations_need_rewritten_keys totals totals_namesExist totals_forest
    (fun _ h => (by cases h))
  refine ⟨s, hrun, fun v hv => ?_⟩
  obtain ⟨e, fields, -, hexpr, htwice⟩ := hall v hv
  exact htwice (totals_keys hrun hexpr)

/-- `x = {["a"]: [1], ["a"]: 2}`. -/
def rewritten : Program where
  source := Module.empty
    |>.addExpr (.literal (.string "a"))
    |>.addExpr (.literal (.int "1"))
    |>.addExpr (.list [.member 1])
    |>.addExpr (.literal (.string "a"))
    |>.addExpr (.literal (.int "2"))
    |>.addExpr (.record [.computed 0 2, .computed 3 4])
    |>.addConstant ⟨"x", Module.root, 5, none⟩
  imports := []
  settings := .default

/-- The type of the field is that of the last value, and it is committed to the list as well. -/
theorem rewritten_violated : (rewritten.source.Forest ∧ rewritten.source.NamesExist
      ∧ rewritten.ImportsOnly (Ty.isConcrete Singleton.isProper)
      ∧ ∀ id < rewritten.source.exprs.size, rewritten.source.expr id ≠ .missing)
    ∧ ∃ s, rewritten.run = some s
      ∧ .violated (.listAgainst 2 (.singleton (.ofScalar (.int 2)))) ∈ s.journal.log.toList := by
  refine ⟨⟨Module.forest_of_nodup (by decide), Module.Built.namesExist (Module.Built.empty |>.expr _
    |>.expr _ |>.expr _ |>.expr _ |>.expr _ |>.expr _ |>.constant _), fun _ h => (by cases h),
    by decide⟩, _, rfl, ?_⟩
  exact List.mem_of_getElem? (i := 2) rfl

/-! ## Types without a choice -/

theorem Ty.Definite.noUnion {ty : Ty} (h : ty.Definite) : ty.everywhere isNoUnion = true := by
  induction h with
  | value _ | table | error => rfl
  | tuple _ ih => exact everywhere_tuple.mpr ⟨rfl, ih, fun _ h => (by cases h)⟩
  | record _ _ ih => exact everywhere_record.mpr ⟨rfl, ih, fun _ h => (by cases h)⟩

/-- **What a value shows of the final type**, if a type was inferred for it: the same type, base and
all. Only where several readings were inferred, the one that is left may be an integer for a byte. -/
def Ty.Shows (own inferred ty : Ty) : Prop :=
  (own == ty) = true ∨ ∃ members i, inferred = .union members ∧ own ∈ members
    ∧ own = .singleton ⟨.int i, .int⟩ ∧ ty = .singleton ⟨.int i, .byte⟩

/-- The value of a constant shows the final type of the constant, unless it is a name. A list or a
record in parentheses keeps what was inferred. -/
def Shown (p : Program) (s : Checker) (value : ExprId) (inferred ty : Ty) : Prop :=
  (∀ source name, p.source.expr value ≠ .reference source name) →
    ∃ own, s.exprTypes.get? value = some own ∧ (own.Shows inferred ty
      ∨ ((∃ inner, p.source.expr value = .group inner) ∧ own = inferred ∧ own.isStructured = true
        ∧ ty.Refines Singleton.Rereads false own))

/-- Single values with one base are the same type if they are the same value. -/
theorem Ty.beq_singleton {v w : Singleton} (hvalue : (v.value == w.value) = true)
    (hbase : v.base = w.base) : (Ty.singleton v == Ty.singleton w) = true :=
  Ty.same_iff.mpr (.finite (.cons (Bool.and_eq_true_iff.mpr ⟨hvalue, beq_iff_eq.mpr hbase⟩) .nil))

/-- A reading under its natural base stands for the same value under another base of the domain: it is
an integer, and the other is a byte. -/
theorem Singleton.int_and_byte {r w : Singleton} (hnatural : r = .ofScalar r.value)
    (hdomain : r.base.domain = w.base.domain) (hvalue : (r.value == w.value) = true)
    (hbase : r.base ≠ w.base) : ∃ i, r = ⟨.int i, .int⟩ ∧ w = ⟨.int i, .byte⟩ := by
  have hint := Primitive.domain_eq_int hdomain hbase
  obtain ⟨value, base⟩ := w
  obtain ⟨i, rfl⟩ : ∃ i, r = ⟨.int i, .int⟩ := by
    rw [hnatural, Singleton.ofScalar, Scalar.domain_naturalBase] at hint
    cases hr : r.value with
    | int i => exact ⟨i, hnatural.trans (by rw [hr]; rfl)⟩
    | _ =>
      rw [hr] at hint
      cases hint
  refine ⟨i, rfl, ?_⟩
  cases base with
  | byte =>
    cases value with
    | int j =>
      have heq : i = j := beq_iff_eq.mp hvalue
      rw [heq]
    | _ => cases hvalue
  | int => exact absurd rfl hbase
  | _ => cases hdomain

/-- The reading that is picked for its own value shows it. -/
theorem Singleton.Picks.shows {r w v : Singleton} {values : List Singleton} (h : r.Picks values w v)
    (hvalues : Ty.IsChoice values) (hr : r ∈ values) (hdomain : r.base.domain = w.base.domain)
    (hsame : (r.value == w.value) = true) :
    (Ty.singleton v).Shows (.ofValues values) (.singleton w) := by
  by_cases hlen : values.length = 1
  · exact Or.inl (Ty.beq_singleton (by rw [h.value]; exact hsame) (h.retagged hlen hsame))
  · obtain rfl := h.left hlen
    by_cases hbase : v.base = w.base
    · exact Or.inl (Ty.beq_singleton hsame hbase)
    · obtain ⟨i, rfl, rfl⟩ := int_and_byte (hvalues.natural hlen v hr) hdomain hsame hbase
      exact Or.inr ⟨_, i, Ty.ofValues_eq_union hlen, List.mem_map_of_mem hr, rfl, rfl⟩

/-- **A value that has taken the final type shows it.** -/
theorem Passage.Course.shown {id : ConstId} {constant : Constant} {ty : Ty} {s : Checker}
    {w : Passage p id constant ty s} (h : w.Course) (herror : ty.isError = false) :
    Shown p s constant.value w.inferred ty := by
  intro hname
  have hfinal := h.kept.types constant.value .refl
  cases hform : (p.source.expr constant.value).isConstructor with
  | true => exact ⟨ty, hfinal.trans (h.taken.whole hform), Or.inl (Or.inl (Ty.same_refl ty))⟩
  | false =>
    by_cases hchoice : ∃ values, w.inferred = .ofValues values
    · -- the reading that was picked is the one that the final type stands for
      obtain ⟨values, heq⟩ := hchoice
      have hrefines := h.settles.2
      have hoperand := h.held.isOperand
      rw [heq] at hrefines hoperand
      obtain ⟨hvalues, hcoherent, -⟩ := hoperand.readings (readingsOf?_ofValues values)
      obtain ⟨x, rfl, r, hr, hrereads⟩ := hrefines.ofValues herror
      obtain ⟨r', hr', hdomain, v, hv, hpicks⟩ := h.taken.chosen x values rfl (heq ▸ h.entry)
      obtain rfl := hvalues.eq_of_domain hr' hr (hdomain.trans hrereads.domain)
      have hshows := hpicks.shows hvalues hr' hdomain (hrereads.value (hcoherent r' hr'))
      exact ⟨_, hfinal.trans hv, Or.inl (heq ▸ hshows)⟩
    · have hother : ∀ values, w.inferred ≠ .ofValues values :=
        fun values heq => hchoice ⟨values, heq⟩
      have hstays := h.taken.stays hform fun values heq =>
        hother values (Option.some.inj (h.entry.symm.trans heq))
      have hok := h.isError herror
      exact ⟨w.inferred, hfinal.trans (hstays.trans h.entry),
        Or.inr ⟨h.held.exists_group hok hother hform hname, rfl,
          h.held.isStructured h.firm hok hother, h.settles.2⟩⟩

/-- **The second pass commits every expression.** In a forest where no record writes a computed key
twice, with declared types that hold no error, the types in the value of a constant that is not
erroneous hold no union, except for lists and records in parentheses. On every way of the constant
through the check, the value shows the final type of the constant, unless it is a name: a single value
that was inferred has the base of the constant, too. -/
theorem values_are_committed (p : Program) (hnames : p.source.NamesExist) (hforest : p.source.Forest)
    (hdeclared : p.DeclaresOnly Ty.isNoError)
    (himports : p.ImportsOnly (Ty.isConcrete Singleton.isProper)) (hwildcard : p.NoWildcard) :
    ∃ s, p.run = some s ∧ p.check = some s.finish
      ∧ ∀ id constant, p.source.constants[id]? = some constant →
        ∃ ty, s.finish.constTypes.get? id = some ty
          ∧ (ty ≠ .error → Distinct p.source s constant.value →
            (∀ e, p.source.Within constant.value e → ∃ own, s.finish.exprTypes.get? e = some own
              ∧ (own.everywhere Ty.isNoUnion = true
                ∨ (own.isStructured = true ∧ ∃ inner, p.source.expr e = .group inner)))
            ∧ Nonempty (Passage p id constant ty s)
            ∧ ∀ w : Passage p id constant ty s, Shown p s constant.value w.inferred ty) := by
  have hp : p.Regular false := ⟨hnames, hforest, hdeclared, himports, fun _ => hwildcard⟩
  obtain ⟨s, hrun, hcheck, h⟩ := exists_advance hp
  refine ⟨s, hrun, hcheck, fun id constant hconstant => ?_⟩
  obtain ⟨ty, hty, hcommitted⟩ := h.committed_at_end hnames hconstant
  refine ⟨ty, hty, fun hne hdistinct => ?_⟩
  have herror := Ty.isError_eq_false hne
  refine ⟨fun e he => ?_, exists_passage hp hrun hconstant hty herror,
    fun w => (w.course hp hconstant herror).shown herror⟩
  -- with distinct keys every part lasts, so the commitment reaches all of them
  obtain ⟨own, hown, hfinal⟩ := (hcommitted herror e (hdistinct.lastsWithin he)).entry
  exact ⟨own, hown, hfinal.imp_left Ty.Definite.noUnion⟩

/-- `portion : byte = (2 + 3)`. -/
def portion : Program where
  source := Module.empty
    |>.addExpr (.literal (.int "2"))
    |>.addExpr (.literal (.int "3"))
    |>.addExpr (.binary (.arith .add) 0 1)
    |>.addExpr (.group 2)
    |>.addConstant ⟨"portion", Module.root, 3, some (.primitive .byte)⟩
  imports := []
  settings := .default

/-- A single value is inferred, and it is an integer. -/
theorem portion_inferred {constant : Constant} {ty : Ty} {s : Checker}
    (hconstant : portion.source.constants[0]? = some constant) (w : Passage portion 0 constant ty s) :
    w.inferred = .singleton ⟨.int 5, .int⟩ := by
  cases hconstant
  have hdone : w.done = [] := by
    have hlen : (w.done ++ w.group :: w.rest).length = 1 := by rw [← w.groups]; rfl
    rw [List.length_append, List.length_cons] at hlen
    exact List.length_eq_zero_iff.mp (by omega)
  have hbefore : w.before = .begin portion := by
    have henters := w.enters
    rw [hdone] at henters
    exact (Prod.mk.inj (Option.some.inj henters)).2.symm
  have hevaluates := w.evaluates
  rw [hbefore] at hevaluates
  exact (Prod.mk.inj (Option.some.inj hevaluates)).1.symm

theorem portion_final {s : Checker} (hrun : portion.run = some s) :
    s.finish.constTypes.get? 0 = some (.singleton ⟨.int 5, .byte⟩) := by
  have hfinal : (portion.run.bind fun s => s.finish.constTypes.get? 0)
      = some (.singleton ⟨.int 5, .byte⟩) := rfl
  rwa [hrun] at hfinal

theorem portion_distinct (s : Checker) (id : ExprId) : Distinct portion.source s id := by
  intro e fields _ hexpr
  refine absurd hexpr (Module.forall_expr (P := fun e => e ≠ .record fields) ?_ (fun h => by cases h) e)
  simp [portion, Module.addExpr, Module.addConstant, Module.define, Module.empty]

/-- The first summand is left with one reading, and the parentheses end as the byte, not as the
integer. -/
theorem portion_committed : ∃ s part own, portion.run = some s
    ∧ s.finish.exprTypes.get? 0 = some part ∧ part.everywhere Ty.isNoUnion = true
    ∧ s.finish.exprTypes.get? 3 = some own ∧ (own == .singleton ⟨.int 5, .byte⟩) = true := by
  obtain ⟨s, hrun, -, hall⟩ := values_are_committed portion
    (Module.Built.namesExist (Module.Built.empty |>.expr _ |>.expr _ |>.expr _ |>.expr _ |>.constant _))
    (Module.forest_of_nodup (by decide)) (by unfold Program.DeclaresOnly; decide)
    (fun _ h => (by cases h))
    (Module.forall_expr (P := fun e => e ≠ .reference none Module.wildcardName) (by decide) (by decide))
  obtain ⟨ty, hty, hcommitted⟩ := hall 0 _ rfl
  obtain rfl := Option.some.inj (hty.symm.trans (portion_final hrun))
  obtain ⟨hfree, ⟨w⟩, hshown⟩ := hcommitted (fun h => by cases h) (portion_distinct s 3)
  have hwithin : portion.source.Within 3 0 :=
    .tail (.tail .refl (show 2 ∈ (portion.source.expr 3).children by decide))
      (show 0 ∈ (portion.source.expr 2).children by decide)
  obtain ⟨part, hpart, hunion | ⟨-, _, hgroup⟩⟩ := hfree 0 hwithin
  · obtain ⟨own, hown, hshows⟩ := hshown w fun _ _ h => (by cases h)
    rw [portion_inferred rfl w] at hshows
    refine ⟨s, part, own, hrun, hpart, hunion, hown, ?_⟩
    -- neither several readings nor a list was inferred
    rcases hshows with (hsame | ⟨_, _, hchoice, -⟩) | ⟨-, heq, hstructured, -⟩
    · exact hsame
    · cases hchoice
    · rw [heq] at hstructured
      cases hstructured
  · cases hgroup

/-- `x : byte|float = 5` and `y : (int|float)[] = ([1])`. -/
def bracketed : Program where
  source := Module.empty
    |>.addExpr (.literal (.int "5"))
    |>.addConstant ⟨"x", Module.root, 0, some (.union [.primitive .byte, .primitive .float])⟩
    |>.addExpr (.literal (.int "1"))
    |>.addExpr (.list [.member 1])
    |>.addExpr (.group 2)
    |>.addConstant ⟨"y", Module.root, 3,
      some (.array (.union [.primitive .int, .primitive .float]) .unbounded)⟩
  imports := []
  settings := .default

/-- The first value stays an integer where the constant is a byte, and the parentheses around the
second keep both readings. -/
theorem bracketed_not_committed :
    (bracketed.source.Forest ∧ bracketed.source.NamesExist ∧ bracketed.DeclaresOnly Ty.isNoError
      ∧ bracketed.DeclaresOnly Ty.isNoTable
      ∧ bracketed.ImportsOnly (Ty.isConcrete Singleton.isProper) ∧ bracketed.NoWildcard)
    ∧ ∃ s, bracketed.run = some s
      ∧ s.finish.constTypes.get? 0 = some (.singleton ⟨.int 5, .byte⟩)
      ∧ s.finish.exprTypes.get? 0 = some (.singleton ⟨.int 5, .int⟩)
      ∧ s.finish.constTypes.get? 1 = some (.tuple [.singleton (.ofScalar (.int 1))] none)
      ∧ ∃ own, s.finish.exprTypes.get? 3 = some own ∧ own.everywhere Ty.isNoUnion = false := by
  refine ⟨⟨Module.forest_of_nodup (by decide), Module.Built.namesExist (Module.Built.empty |>.expr _
    |>.constant _ |>.expr _ |>.expr _ |>.expr _ |>.constant _),
    by unfold Program.DeclaresOnly; decide, by unfold Program.DeclaresOnly; decide,
    fun _ h => (by cases h), ?_⟩, _, rfl, rfl, rfl, rfl, _, rfl, rfl⟩
  exact Module.forall_expr (P := fun e => e ≠ .reference none Module.wildcardName) (by decide)
    (by decide)

end ConstNarrow
