/-
**What the final types of constants are.**

Two disciplines are carried through a whole check. Under the first, a constant that is not erroneous
has a concrete type, one that is assignable to the declared type, and its value is that of the type.
Under the second, no final type holds an error anywhere, as long as nothing is reported; but a broad
type that has no narrowing becomes the error type without a report, and only the log says so. Such
types come in by the wildcard and by tables, and in no other way.
-/
import ConstNarrow.Proofs.DependencyOrder

set_option autoImplicit false

namespace ConstNarrow

open Checker

/-- Something holds everywhere in the declared types of a program. -/
def Program.DeclaresOnly (p : Program) (f : Ty → Bool) : Prop :=
  ∀ constant ∈ p.source.constants, ∀ ty ∈ constant.declared, ty.everywhere f = true

/-- Something holds of the types of all constants that a program imports. -/
def Program.ImportsOnly (p : Program) (f : Ty → Bool) : Prop :=
  ∀ entry ∈ p.imports, ∀ item ∈ entry.2, ∀ ty, item.2 = .constant ty → f ty = true

/-- A program names the wildcard nowhere. -/
def Program.NoWildcard (p : Program) : Prop :=
  ∀ id, p.source.expr id ≠ .reference none Module.wildcardName

variable {p : Program}

/-- What holds of the expressions of a module, and of a gap, holds of whatever a number stands
for. -/
theorem Module.forall_expr {m : Module} {P : Expr → Prop} (h : ∀ e ∈ m.exprs.toList, P e)
    (hmissing : P .missing) (id : ExprId) : P (m.expr id) := by
  unfold Module.expr
  cases hget : m.exprs[id]? with
  | none => exact hmissing
  | some e => exact h e (Array.mem_toList_iff.mpr (Array.mem_of_getElem? hget))

theorem Program.ImportsOnly.lookup {f : Ty → Bool} (h : p.ImportsOnly f) {moduleName name : String}
    {exports : List (String × Export)} {ty : Ty}
    (hexports : p.imports.lookup moduleName = some exports)
    (hty : exports.lookup name = some (.constant ty)) : f ty = true :=
  h _ (Module.mem_of_lookup hexports) _ (Module.mem_of_lookup hty) ty rfl

/-! ## Concrete types -/

/-- A program without wildcards suits the discipline of concrete types. -/
theorem suits_concrete (hwildcard : p.NoWildcard) (hdeclared : p.DeclaresOnly Ty.isDeclarable)
    (himports : p.ImportsOnly (Ty.isConcrete Singleton.isProper)) :
    Discipline.concrete.Suits p where
  declared := hdeclared
  missing := fun _ _ _ => trivial
  unnamed := fun _ _ _ _ _ _ _ => trivial
  wildcard := fun id _ hid => absurd hid (hwildcard id)
  imported := fun _ _ _ _ _ _ _ hexports hty =>
    Ty.candidate_of_isConcrete (himports.lookup hexports hty)

/-- **Constants are concrete and inhabit their declared types.** A check of a program without the
wildcard, with declared types that hold neither errors nor tables and with imported constants of
concrete types, has a result. In it every constant is erroneous, or has a concrete type that is
assignable to its declared type, and the value of that type. -/
theorem constants_inhabit_declared (p : Program) (hnames : p.source.NamesExist)
    (hacyclic : p.source.Acyclic) (hwildcard : p.NoWildcard)
    (hdeclared : p.DeclaresOnly Ty.isDeclarable)
    (himports : p.ImportsOnly (Ty.isConcrete Singleton.isProper)) :
    ∃ r, p.check = some r ∧ ∀ id constant, p.source.constants[id]? = some constant →
      ∃ ty, r.constTypes.get? id = some ty ∧ (ty = .error
        ∨ (ty.isConcrete Singleton.isProper = true
          ∧ (∀ expected ∈ constant.declared, ty.isAssignable expected = true)
          ∧ ∃ value, Value.ofTy? ty = some value ∧ r.values.get? id = some value)) := by
  obtain ⟨s, hrun, -, h⟩ := exists_run hnames hacyclic (suits_concrete hwildcard hdeclared himports)
  refine ⟨s.finish, by rw [Program.check, hrun]; rfl, fun id constant hconstant => ?_⟩
  obtain ⟨hlt, -⟩ := Array.getElem?_eq_some_iff.mp hconstant
  obtain ⟨group, hgroup, hmem⟩ := Module.exists_group hnames hlt
  obtain ⟨ty, hstatus, -⟩ := h.resolved group hgroup id hmem
  obtain ⟨hvalue, hsettled⟩ := h.settled id constant ty hconstant hstatus
  refine ⟨ty, constTypes_get? s hstatus, ?_⟩
  cases herror : ty.isError with
  | true => exact Or.inl (Ty.isError_iff.mp herror)
  | false =>
    have hinhabits : Ty.Inhabits ty (constant.declared.getD .anydata) :=
      (hsettled.resolve_left fun hE => hE).meets herror
    refine Or.inr ⟨hinhabits.concrete, fun expected hexpected => ?_, ?_⟩
    · rw [Option.mem_def.mp hexpected] at hinhabits
      exact hinhabits.accepted
    · obtain ⟨value, hofTy⟩ := Ty.exists_ofTy hinhabits.concrete
      exact ⟨value, hofTy, hvalue.trans hofTy⟩

/-- A byte, and a list and a record with it: `x : byte = 5`, `y = [x, "s"]`, `z = {x}`. -/
def listing : Program where
  source := Module.empty
    |>.addExpr (.literal (.int "5"))
    |>.addConstant ⟨"x", Module.root, 0, some (.primitive .byte)⟩
    |>.addExpr (.reference none "x")
    |>.addExpr (.literal (.string "s"))
    |>.addExpr (.list [.member 1, .member 2])
    |>.addConstant ⟨"y", Module.root, 3, none⟩
    |>.addExpr (.reference none "x")
    |>.addExpr (.record [.reference 4])
    |>.addConstant ⟨"z", Module.root, 5, none⟩
  imports := []
  settings := .default

theorem listing_namesExist : listing.source.NamesExist :=
  Module.Built.namesExist (Module.Built.empty |>.expr _ |>.constant _ |>.expr _ |>.expr _ |>.expr _
    |>.constant _ |>.expr _ |>.expr _ |>.constant _)

theorem listing_noWildcard : listing.NoWildcard :=
  Module.forall_expr (P := fun e => e ≠ .reference none Module.wildcardName) (by decide) (by decide)

theorem listing_inhabits : ∃ r ty value, listing.check = some r ∧ r.constTypes.get? 1 = some ty
    ∧ ty.isConcrete Singleton.isProper = true ∧ Value.ofTy? ty = some value
    ∧ r.values.get? 1 = some value := by
  obtain ⟨r, hcheck, hall⟩ := constants_inhabit_declared listing listing_namesExist
    (Module.acyclic_of_lt (by decide)) listing_noWildcard
    (by unfold Program.DeclaresOnly; decide) (fun _ h => (by cases h))
  obtain ⟨ty, hty, herror | ⟨hconcrete, -, value, hvalue, hget⟩⟩ := hall 1 _ rfl
  · have hfine : (listing.check.map fun r => (r.constTypes.get? 1).map Ty.isError)
        = some (some false) := by decide
    rw [hcheck, Option.map_some, hty, herror] at hfine
    cases hfine
  · exact ⟨r, ty, value, hcheck, hty, hconcrete, hvalue, hget⟩

/-! ## Errors and reports -/

/-- The parts of a record from which its fields take their names. -/
def Expr.namesakes : Expr → List ExprId
  | .record fields => fields.filterMap fun
    | .reference value => some value
    | _ => none
  | _ => []

/-- Every field that takes its name from what it refers to holds a reference. -/
def Program.FieldsNamed (p : Program) : Prop :=
  ∀ id, ∀ value ∈ (p.source.expr id).namesakes, p.source.fieldName? value ≠ none

/-- No value of a constant has a gap. -/
def Program.NoGaps (p : Program) : Prop := ∀ id, p.source.Used id → p.source.expr id ≠ .missing

/-- It is enough that the expressions of the module are no gaps and lead to no other numbers. -/
theorem Program.noGaps_of_lt
    (hvalue : ∀ constant ∈ p.source.constants, constant.value < p.source.exprs.size)
    (hpart : ∀ e < p.source.exprs.size, ∀ b ∈ (p.source.expr e).children, b < p.source.exprs.size)
    (hexpr : ∀ e < p.source.exprs.size, p.source.expr e ≠ .missing) : p.NoGaps := by
  rintro id ⟨constant, hconstant, hwithin⟩
  refine hexpr id ?_
  induction hwithin with
  | refl => exact hvalue constant hconstant
  | tail _ hlast ih => exact hpart _ ih _ hlast

/-- The journal speaks of a problem: something is reported or, where broad types are let in, the log
names one that has no narrowing. -/
def Journal.Speaks (broad : Bool) (j : Journal) : Prop :=
  j.diagnostics ≠ #[] ∨ (broad = true ∧ ∃ ty, .noNarrowing ty ∈ j.log.toList)

/-- What has been said stays in the journal. -/
theorem Journal.lasts_speaks (broad : Bool) : Journal.Lasts (Journal.Speaks broad) := by
  intro j k hext hj
  rcases hj with hj | ⟨hbroad, ty, hty⟩
  · exact Or.inl (Journal.diagnostics_ne_empty hext hj)
  · obtain ⟨new, hnew⟩ := hext.log
    exact Or.inr ⟨hbroad, ty, hnew ▸ List.mem_append_left _ hty⟩

/-- The discipline under which no type holds an error unless the journal speaks of a problem. -/
def Discipline.outspoken (broad : Bool) : Discipline (Journal.Speaks broad) :=
  .errorFree broad (Journal.lasts_speaks broad) (fun hbroad _ ty hty => Or.inr ⟨hbroad, ty, hty⟩)
    fun _ hj => Or.inl hj

/-- All of a concrete type is inhabitable. -/
theorem everywhere_of_isConcrete {broad : Bool} {ok : Singleton → Bool} {ty : Ty}
    (h : ty.isConcrete ok = true) : ty.everywhere (Ty.isInhabitable broad) = true := by
  refine Ty.concrete_induction (motive := fun ty => ty.everywhere (Ty.isInhabitable broad) = true)
    (fun _ _ => rfl) (fun members ih => Ty.everywhere_tupleOf ih) (fun fields ih => ?_) h
  exact Ty.everywhere_record.mpr ⟨rfl, fun entry he => (ih entry he).2, fun _ h => (by cases h)⟩

/-- A program without gaps suits the discipline that no error goes unreported. -/
theorem suits_outspoken {broad : Bool} (hgaps : p.NoGaps) (hfields : p.FieldsNamed)
    (hdeclared : p.DeclaresOnly (Ty.isOffered broad)) (hwildcard : broad = true ∨ p.NoWildcard)
    (himports : p.ImportsOnly (Ty.isConcrete fun _ => true)) :
    (Discipline.outspoken broad).Suits p where
  declared := hdeclared
  missing := fun id hid hexpr => absurd hexpr (hgaps id hid)
  unnamed := fun id fields value _ hexpr hmem hnone => by
    refine hfields id value ?_ hnone
    rw [hexpr]
    exact List.mem_filterMap.mpr ⟨.reference value, hmem, rfl⟩
  wildcard := fun id _ hexpr => by
    rcases hwildcard with rfl | hwildcard
    · rfl
    · exact absurd hexpr (hwildcard id)
  imported := fun _ _ _ _ _ _ _ hexports hty =>
    everywhere_of_isConcrete (himports.lookup hexports hty)

/-- If the journal speaks of no problem, no final type holds an error. -/
theorem exists_errorFree {broad : Bool} (hnames : p.source.NamesExist) (hacyclic : p.source.Acyclic)
    (hD : (Discipline.outspoken broad).Suits p) :
    ∃ s, p.run = some s ∧ (¬ s.journal.Speaks broad → ∀ id < p.source.constants.size,
      ∃ ty, s.finish.constTypes.get? id = some ty ∧ ty.everywhere Ty.isNoError = true) := by
  obtain ⟨s, hrun, -, h⟩ := exists_run hnames hacyclic hD
  refine ⟨s, hrun, fun hspeaks id hid => ?_⟩
  obtain ⟨group, hgroup, hmem⟩ := Module.exists_group hnames hid
  obtain ⟨ty, hstatus, -⟩ := h.resolved group hgroup id hmem
  have hfound := (h.settled id _ ty (Array.getElem?_eq_getElem hid) hstatus).2
  have hsettled := hfound.resolve_left hspeaks
  have hclean : ty.everywhere (Ty.isInhabitable broad) = true :=
    hsettled.meets (Bool.eq_false_iff.mpr hsettled.silent)
  refine ⟨ty, constTypes_get? s hstatus, Ty.everywhere_of_imp (fun t ht _ => ?_) hclean hclean⟩
  cases t with
  | error => cases ht
  | _ => rfl

/-- **No failure goes unmentioned.** Let a program have no gaps, and no errors in its declared and
imported types. If its check reports nothing, then a final type that holds an error comes from a
broad type that has no narrowing, and the log says so; a program that neither names the wildcard nor
declares tables has no such types. -/
theorem errors_are_reported_or_logged (p : Program) (hnames : p.source.NamesExist)
    (hacyclic : p.source.Acyclic) (hgaps : p.NoGaps) (hfields : p.FieldsNamed)
    (hdeclared : p.DeclaresOnly Ty.isNoError)
    (himports : p.ImportsOnly (Ty.isConcrete fun _ => true)) :
    ∃ s, p.run = some s ∧ p.check = some s.finish ∧ (s.finish.diagnostics = [] →
      (∀ ty, .noNarrowing ty ∉ s.journal.log.toList)
        ∨ (p.NoWildcard ∧ p.DeclaresOnly Ty.isNoTable) →
      ∀ id < p.source.constants.size,
        ∃ ty, s.finish.constTypes.get? id = some ty ∧ ty.everywhere Ty.isNoError = true) := by
  have hoffered : ∀ broad, (broad = true ∨ p.DeclaresOnly Ty.isNoTable) →
      p.DeclaresOnly (Ty.isOffered broad) := by
    intro broad htable constant hconstant ty hty
    have herror := hdeclared constant hconstant ty hty
    rcases htable with rfl | htable
    · refine Ty.everywhere_of_imp (fun t ht _ => ?_) herror herror
      cases t with
      | error => cases ht
      | _ => rfl
    · refine Ty.everywhere_of_imp (fun t ht ht' => ?_) herror (htable constant hconstant ty hty)
      cases t with
      | error => cases ht
      | table => cases ht'
      | _ => rfl
  -- one run, read under two disciplines: with broad types let in, and without them
  obtain ⟨s, hrun, hlogged⟩ := exists_errorFree hnames hacyclic
    (suits_outspoken hgaps hfields (hoffered true (Or.inl rfl)) (Or.inl rfl) himports)
  refine ⟨s, hrun, by rw [Program.check, hrun]; rfl, fun hnone hwhy => ?_⟩
  have hreports : s.journal.diagnostics = #[] := Array.toList_eq_nil_iff.mp hnone
  rcases hwhy with hlog | ⟨hwildcard, htable⟩
  · refine hlogged ?_
    rintro (hspeaks | ⟨-, ty, hty⟩)
    · exact hspeaks hreports
    · exact hlog ty hty
  · obtain ⟨t, hrun', hsilent⟩ := exists_errorFree hnames hacyclic
      (suits_outspoken hgaps hfields (hoffered false (Or.inr htable)) (Or.inr hwildcard) himports)
    cases hrun.symm.trans hrun'
    refine hsilent ?_
    rintro (hspeaks | ⟨hbroad, -⟩)
    · exact hspeaks hreports
    · cases hbroad

theorem listing_errorFree : ∃ s : Checker, listing.check = some s.finish
    ∧ s.finish.diagnostics = []
    ∧ ∃ ty, s.finish.constTypes.get? 2 = some ty ∧ ty.everywhere Ty.isNoError = true := by
  have hgaps : listing.NoGaps := Program.noGaps_of_lt (by decide) (by decide) (by decide)
  have hfields : listing.FieldsNamed := Module.forall_expr
    (P := fun e => ∀ value ∈ e.namesakes, listing.source.fieldName? value ≠ none) (by decide)
    (by decide)
  obtain ⟨s, -, hcheck, hfree⟩ := errors_are_reported_or_logged listing listing_namesExist
    (Module.acyclic_of_lt (by decide)) hgaps hfields (by unfold Program.DeclaresOnly; decide)
    (fun _ h => (by cases h))
  have hnone : s.finish.diagnostics = [] := by
    have hlength : (listing.check.map fun r => r.diagnostics.length) = some 0 := by decide
    rw [hcheck] at hlength
    exact List.length_eq_zero_iff.mp (Option.some.inj hlength)
  have hdeclared : listing.DeclaresOnly Ty.isNoTable := by unfold Program.DeclaresOnly; decide
  exact ⟨s, hcheck, hnone, hfree hnone (Or.inr ⟨listing_noWildcard, hdeclared⟩) 2 (by decide)⟩

/-- The wildcard as the value of a constant: `x = _`. -/
def anything : Program where
  source := Module.empty
    |>.addExpr (.reference none Module.wildcardName)
    |>.addConstant ⟨"x", Module.root, 0, none⟩
  imports := []
  settings := .default

/-- **A failure that is not reported.** The wildcard stands for any data, which has no narrowing, so
that the constant is erroneous and only the log says so. -/
theorem anything_fails_unreported :
    (anything.source.NamesExist ∧ anything.source.Acyclic ∧ anything.NoGaps ∧ anything.FieldsNamed
      ∧ anything.DeclaresOnly Ty.isNoError ∧ anything.ImportsOnly (Ty.isConcrete fun _ => true))
    ∧ ∃ r, anything.check = some r ∧ r.diagnostics = [] ∧ r.constTypes.get? 0 = some .error := by
  refine ⟨⟨Module.Built.namesExist (Module.Built.empty |>.expr _ |>.constant _),
    Module.acyclic_of_lt (by decide), Program.noGaps_of_lt (by decide) (by decide) (by decide), ?_,
    by unfold Program.DeclaresOnly; decide, fun _ h => (by cases h)⟩, _, rfl, rfl, rfl⟩
  exact Module.forall_expr
    (P := fun e => ∀ value ∈ e.namesakes, anything.source.fieldName? value ≠ none) (by decide)
    (by decide)

end ConstNarrow
