/-
**Naming a part of a union.**

A member of a union may itself be a union, under a name. It is then tried as one alternative, and what
is ambiguous in it is not reported, because an alternative is tried quietly. If the members stand in
the place of the name instead, the same types are taken, but a choice may come up that the name has
hidden. `Tracks` compares two validations, `Replaces` two types by the validations against them, and
every way to build a type keeps the relation. So it is enough to look at the union that the name stands
in.

Only one thing is lost on the way up. Where the union is an alternative of another one, its result is
compared with other results, and another result may be the same as one of these: there a name may
also make a choice ambiguous that is not otherwise.
-/
import ConstNarrow.Proofs.Ambiguity

set_option autoImplicit false

namespace ConstNarrow

open Validation

namespace Validation

variable {α β : Type} {exposed exact : Prop} {site : Site}

/-! ## Two validations -/

/-- A report says that a choice is ambiguous. -/
def HasChoice (ds : List Diagnostic) : Prop := ∃ d ∈ ds, d.problem.code = .ambiguousType

theorem hasChoice_append {ds es : List Diagnostic} :
    HasChoice (ds ++ es) ↔ HasChoice ds ∨ HasChoice es := by
  simp only [HasChoice, List.mem_append, or_and_right, exists_or]

/-- Two results are failures of the same kind, or none is; and they are equal if this is exact. -/
inductive ResultsAgree (exact : Prop) : (r r' : Except NarrowError α) → Prop where
  | ok {a b : α} (h : exact → a = b) : ResultsAgree exact (.ok a) (.ok b)
  | error (e : NarrowError) : ResultsAgree exact (.error e) (.error e)

/-- **A validation keeps track of another one.** Both succeed, or both fail in the same way. What is
ambiguous in the first is so in the second, where that is exposed. If this is exact, the results are
the same, and nothing else is ambiguous. -/
def Tracks (exposed exact : Prop) (v w : Validation α) : Prop :=
  ∃ r r' ds es, Tells v r ds ∧ Tells w r' es ∧ ResultsAgree exact r r'
    ∧ (exposed ∨ exact → HasChoice ds → HasChoice es) ∧ (exact → HasChoice es → HasChoice ds)

namespace Tracks

variable {v w : Validation α}

theorem refl (h : Told v) : Tracks exposed exact v v := by
  obtain ⟨r, ds, h⟩ := h
  refine ⟨r, r, ds, ds, h, h, ?_, fun _ => id, fun _ => id⟩
  cases r with
  | ok a => exact .ok fun _ => rfl
  | error e => exact .error e

theorem mono {exposed' exact' : Prop} (h : Tracks exposed exact v w) (hexposed : exposed' → exposed)
    (hexact : exact' → exact) : Tracks exposed' exact' v w := by
  obtain ⟨r, r', ds, es, hv, hw, hagrees, hkept, hmade⟩ := h
  refine ⟨r, r', ds, es, hv, hw, ?_, fun h => hkept (h.imp hexposed hexact), fun h => hmade (hexact h)⟩
  cases hagrees with
  | ok h => exact .ok fun hexact' => h (hexact hexact')
  | error e => exact .error e

protected theorem pure {a b : α} (h : exact → a = b) :
    Tracks exposed exact (pure a : Validation α) (pure b) :=
  ⟨_, _, [], [], .pure a, .pure b, .ok h, fun _ => id, fun _ => id⟩

theorem mismatch : Tracks exposed exact (throw .mismatch : Validation α) (throw .mismatch) :=
  .refl (.throw _)

/-- **Validations keep track of each other step by step.** Where this is exact, the same result is
passed on. -/
protected theorem bind {f g : α → Validation β} (h : Tracks exposed exact v w)
    (hf : ∀ a b, Gives v a → Gives w b → (exact → a = b) → Tracks exposed exact (f a) (g b)) :
    Tracks exposed exact (v >>= f) (w >>= g) := by
  obtain ⟨r, r', ds, es, hv, hw, hagrees, hkept, hmade⟩ := h
  cases hagrees with
  | error e => exact ⟨_, _, ds, es, hv.bind_error, hw.bind_error, .error e, hkept, hmade⟩
  | ok hab =>
    obtain ⟨r, r', ds', es', hf, hg, hagrees, hkept', hmade'⟩ := hf _ _ ⟨_, hv⟩ ⟨_, hw⟩ hab
    refine ⟨r, r', ds ++ ds', es ++ es', hv.bind hf, hw.bind hg, hagrees, fun h hchoice => ?_,
      fun h hchoice => ?_⟩
    · exact hasChoice_append.mpr ((hasChoice_append.mp hchoice).imp (hkept h) (hkept' h))
    · exact hasChoice_append.mpr ((hasChoice_append.mp hchoice).imp (hmade h) (hmade' h))

theorem mapM {f g : α → Validation β} {l : List α} (h : ∀ x ∈ l, Tracks exposed exact (f x) (g x)) :
    Tracks exposed exact (l.mapM f) (l.mapM g) := by
  induction l with
  | nil =>
    rw [List.mapM_nil, List.mapM_nil]
    exact .pure fun _ => rfl
  | cons x l ih =>
    obtain ⟨hfirst, hrest⟩ := List.forall_mem_cons.mp h
    rw [List.mapM_cons, List.mapM_cons]
    refine hfirst.bind fun _ _ _ _ hab => (ih hrest).bind fun _ _ _ _ hcd => .pure fun hexact => ?_
    rw [hab hexact, hcd hexact]

end Tracks

/-! ### Open places -/

/-- Types with the same default, or with none, fill a place alike. -/
theorem tracks_fill {ty other : Ty} (h : ty.default.toOption = other.default.toOption) :
    Tracks exposed exact (fill site ty) (fill site other) := by
  unfold fill
  cases hty : ty.default with
  | ok value =>
    cases hother : other.default with
    | ok value' =>
      rw [hty, hother] at h
      cases h
      exact .pure fun _ => rfl
    | error part =>
      rw [hty, hother] at h
      cases h
  | error part =>
    cases hother : other.default with
    | ok value =>
      rw [hty, hother] at h
      cases h
    | error part' =>
      cases site.anchor with
      | none => exact ⟨_, _, [], [], (Tells.note _).bind (.throw _), (Tells.note _).bind (.throw _),
          .error _, fun _ => id, fun _ => id⟩
      | some location =>
        -- the reports may name different parts, but none is about a choice
        have hnone : ∀ part, ¬ HasChoice [Diagnostic.error location (.noDefault part)] := by
          rintro part ⟨d, hd, hcode⟩
          rw [List.mem_singleton.mp hd] at hcode
          cases hcode
        exact ⟨_, _, _, _, (Tells.report _).bind (.throw _), (Tells.report _).bind (.throw _), .error _,
          fun _ h => absurd h (hnone part), fun _ h => absurd h (hnone part')⟩

theorem tracks_padArray {elem other : Ty} (h : elem.default.toOption = other.default.toOption)
    (size : ArraySize) {members results : List Ty} (hlength : members.length = results.length)
    (heq : exact → members = results) :
    Tracks exposed exact (padArray site elem size members) (padArray site other size results) := by
  unfold padArray
  cases size with
  | closed n =>
    dsimp only
    rw [hlength]
    split
    · exact (tracks_fill h).bind fun _ _ _ _ hab => .pure fun hexact => by rw [heq hexact, hab hexact]
    · exact .pure heq
  | unbounded | inferred => exact .pure heq

/-! ## Alternatives -/

/-- What fits is what the alternatives give, each result once. -/
theorem fitting_eq_distinct (site : Site) (inferred : Ty) (members : List Ty) :
    fitting site inferred members [] = Ty.distinct (results site inferred members) :=
  fitting_eq_foldl site inferred members []

/-- What is reported of a choice. -/
theorem exists_tells_choose (site : Site) {results : List Ty} (h : results ≠ []) :
    ∃ ty ds, Tells (choose site (Ty.distinct results)) (.ok ty) ds
      ∧ (HasChoice ds ↔ site.anchor.isSome = true ∧ Ambiguous results) := by
  cases hdistinct : Ty.distinct results with
  | nil =>
    obtain ⟨first, hfirst⟩ := List.exists_mem_of_ne_nil results h
    obtain ⟨ty, hty, -⟩ := Ty.exists_mem_distinct hfirst
    rw [hdistinct] at hty
    cases hty
  | cons first rest =>
    by_cases hdecided : IsDecided (first :: rest)
    · obtain ⟨ty, -, htells⟩ := exists_tells_choose_of_decided site hdecided
      refine ⟨ty, [], htells, iff_of_false (fun ⟨d, hd, _⟩ => by cases hd) fun ⟨_, hambiguous⟩ => ?_⟩
      exact ambiguous_iff.mp hambiguous (hdistinct ▸ hdecided)
    · refine ⟨first, _, tells_choose_of_not_decided hdecided, ?_⟩
      have hambiguous : Ambiguous results := ambiguous_iff.mpr (hdistinct ▸ hdecided)
      rw [and_iff_left hambiguous, HasChoice, choiceReport]
      cases site.anchor with
      | none => simp
      | some location => simp [Problem.code]

/-- Choices from results keep track of each other if there are results in both or in none, and what
is ambiguous stays so. -/
theorem tracks_choose {results results' : List Ty} (hempty : results = [] ↔ results' = [])
    (hsame : exact → Ty.distinct results = Ty.distinct results')
    (hkept : exposed → Ambiguous results → Ambiguous results') :
    Tracks exposed exact (choose site (Ty.distinct results)) (choose site (Ty.distinct results')) := by
  by_cases hexact : exact
  · rw [hsame hexact]
    exact .refl (announces_choose site _ id : Announces site False _).told
  · by_cases hnil : results = []
    · rw [hnil, hempty.mp hnil]
      exact .mismatch
    · obtain ⟨ty, ds, htells, hchoice⟩ := exists_tells_choose site hnil
      obtain ⟨ty', es, htells', hchoice'⟩ := exists_tells_choose site (hempty.not.mp hnil)
      refine ⟨_, _, ds, es, htells, htells', .ok fun h => absurd h hexact, fun h hds => ?_,
        fun h => absurd h hexact⟩
      obtain ⟨hanchor, hambiguous⟩ := hchoice.mp hds
      exact hchoice'.mpr ⟨hanchor, hkept (h.resolve_right hexact) hambiguous⟩

/-- To try alternatives reports nothing, so it is enough to look at the choice from their results. -/
theorem tracks_alternatives {inferred : Ty} {members others : List Ty}
    (h : Tracks exposed exact (choose site (Ty.distinct (results site inferred members)))
      (choose site (Ty.distinct (results site inferred others)))) :
    Tracks exposed exact (validateEach site members inferred [] >>= choose site)
      (validateEach site others inferred [] >>= choose site) := by
  have heach : ∀ tys, Tells (validateEach site tys inferred [])
      (.ok (Ty.distinct (results site inferred tys))) [] := fun tys => by
    rw [← fitting_eq_distinct]
    exact tells_validateEach (fun ty _ => told_validate site ty inferred) []
  obtain ⟨r, r', ds, es, hv, hw, hrest⟩ := h
  exact ⟨r, r', ds, es, (heach members).bind hv, (heach others).bind hw, hrest⟩

end Validation

namespace Ty

/-! ## Two expected types -/

/-- **A type may take the place of another one**: it has a default if the other has one, and the same,
and validations against it keep track of those against the other. They do so exactly where all parts of
the inferred type are simple. -/
structure Replaces (site : Site) (simple : Ty → Bool) (exposed : Prop) (ty other : Ty) : Prop where
  containsNil : ty.containsNil = other.containsNil
  default : ty.default.toOption = other.default.toOption
  tracks : ∀ inferred : Ty, Tracks exposed (inferred.everywhere simple = true)
    (validate site ty inferred) (validate site other inferred)

section Replaces

theorem toOption_map {ε α β : Type} (f : α → β) (x : Except ε α) :
    (x.map f).toOption = x.toOption.map f := by
  cases x <;> rfl

theorem toOption_bind {ε α β : Type} (x : Except ε α) (f : α → Except ε β) :
    (x.bind f).toOption = x.toOption.bind fun a => (f a).toOption := by
  cases x <;> rfl

variable {site : Site} {simple : Ty → Bool} {exposed exact : Prop}

namespace Replaces

theorem refl (ty : Ty) : Replaces site simple exposed ty ty :=
  ⟨rfl, rfl, fun inferred => .refl (told_validate site ty inferred)⟩

theorem mono {exposed' : Prop} {ty other : Ty} (h : Replaces site simple exposed ty other)
    (himp : exposed' → exposed) : Replaces site simple exposed' ty other :=
  ⟨h.containsNil, h.default, fun inferred => (h.tracks inferred).mono himp id⟩

end Replaces

/-- A validation goes on with what an inferred type is when looked through. -/
theorem tracks_unlessError {f g : Ty → Validation Ty}
    (h : ∀ inferred, Looked inferred →
      Tracks exposed (inferred.everywhere simple = true) (f inferred) (g inferred)) (inferred : Ty) :
    Tracks exposed (inferred.everywhere simple = true) (unlessError inferred f)
      (unlessError inferred g) := by
  unfold unlessError
  cases herror : inferred.effective.isError with
  | true => exact .pure fun _ => rfl
  | false =>
    exact (h inferred.effective ⟨effective_effective inferred, herror⟩).mono id
      (everywhere_effective inferred)

theorem replaces_array {elem other : Ty} (size : ArraySize)
    (h : Replaces site simple exposed elem other) :
    Replaces site simple exposed (.array elem size) (.array other size) := by
  refine ⟨rfl, ?_, fun inferred => ?_⟩
  · cases size with
    | unbounded | inferred => rfl
    | closed n =>
      cases n with
      | zero => rfl
      | succ n =>
        show (elem.default.map _).toOption = (other.default.map _).toOption
        rw [toOption_map, toOption_map, h.default]
  · rw [validate, validate]
    refine tracks_unlessError (fun inferred _ => ?_) inferred
    cases inferred with
    | tuple members rest =>
      dsimp only
      split
      · refine (Tracks.mapM fun member hmember => (h.tracks member).mono id fun hsimple => ?_).bind
          fun results results' hresults hresults' heq => ?_
        · exact (everywhere_tuple.mp hsimple).2.1 member hmember
        -- the results may differ, but the number of open places does not
        have hlength := ((gives_mapM (told_validate site elem)).mp hresults).length_eq
        have hlength' := ((gives_mapM (told_validate site other)).mp hresults').length_eq
        refine (tracks_padArray h.default size (hlength.symm.trans hlength') heq).bind
          fun _ _ _ _ heq => .pure fun hsimple => ?_
        rw [heq hsimple]
      · exact .mismatch
    | _ => exact .mismatch

theorem tracks_validateOption {rest other : Option Ty}
    (h : Option.Rel (Replaces site simple exposed) rest other) (inferred : Ty) :
    Tracks exposed (inferred.everywhere simple = true) (validateOption site rest inferred)
      (validateOption site other inferred) := by
  cases h with
  | none => exact .mismatch
  | some h => exact h.tracks inferred

theorem tracks_validateMembers {expected others : List Ty} {extra extra' : Ty → Validation Ty}
    (h : List.Forall₂ (Replaces site simple exposed) expected others)
    (hextra : ∀ inferred, Tracks exposed (inferred.everywhere simple = true) (extra inferred)
      (extra' inferred))
    {members : List Ty} (hmembers : exact → ∀ ty ∈ members, ty.everywhere simple = true) :
    Tracks exposed exact (validateMembers site expected extra members)
      (validateMembers site others extra' members) := by
  induction h generalizing members with
  | nil =>
    rw [validateMembers, validateMembers]
    exact .mapM fun ty hty => (hextra ty).mono id fun hexact => hmembers hexact ty hty
  | cons hfirst _ ih =>
    cases members with
    | nil =>
      rw [validateMembers, validateMembers]
      refine (tracks_fill hfirst.default).bind fun _ _ _ _ hvalue =>
        (ih hmembers).bind fun _ _ _ _ hvalues => .pure fun hexact => ?_
      rw [hvalue hexact, hvalues hexact]
    | cons member members =>
      rw [validateMembers, validateMembers]
      refine ((hfirst.tracks member).mono id fun hexact => hmembers hexact member List.mem_cons_self).bind
        fun _ _ _ _ hvalue => (ih fun hexact ty hty =>
          hmembers hexact ty (List.mem_cons_of_mem _ hty)).bind fun _ _ _ _ hvalues =>
            .pure fun hexact => ?_
      rw [hvalue hexact, hvalues hexact]

theorem toOption_defaultList {tys others : List Ty}
    (h : List.Forall₂ (Replaces site simple exposed) tys others) :
    (defaultList tys).toOption = (defaultList others).toOption := by
  induction h with
  | nil => rfl
  | cons hfirst _ ih =>
    rw [defaultList, defaultList, toOption_bind, toOption_bind, hfirst.default]
    simp only [toOption_map, ih]

theorem replaces_tuple {expected others : List Ty} {rest other : Option Ty}
    (h : List.Forall₂ (Replaces site simple exposed) expected others)
    (hrest : Option.Rel (Replaces site simple exposed) rest other) :
    Replaces site simple exposed (.tuple expected rest) (.tuple others other) := by
  refine ⟨rfl, ?_, fun inferred => ?_⟩
  · rw [Ty.default, Ty.default, toOption_map, toOption_map, toOption_defaultList h]
  · rw [validate, validate]
    refine tracks_unlessError (fun inferred _ => ?_) inferred
    cases inferred with
    | tuple members _ =>
      refine (tracks_validateMembers h (tracks_validateOption hrest) fun hsimple =>
        (everywhere_tuple.mp hsimple).2.1).bind fun _ _ _ _ heq => .pure fun hsimple => ?_
      rw [heq hsimple]
    | _ => exact .mismatch

theorem replaces_map {constraint other : Ty} (h : Replaces site simple exposed constraint other) :
    Replaces site simple exposed (.map constraint) (.map other) := by
  refine ⟨rfl, rfl, fun inferred => ?_⟩
  rw [validate, validate]
  refine tracks_unlessError (fun inferred _ => ?_) inferred
  cases inferred with
  | record fields _ _ =>
    refine (Tracks.mapM fun field hfield => ((h.tracks field.2.ty).mono id fun hsimple => ?_).bind
      fun _ _ _ _ heq => .pure fun hsimple => ?_).bind fun _ _ _ _ heq => .pure fun hsimple => ?_
    · exact (everywhere_record.mp hsimple).2.1 field hfield
    · rw [heq hsimple]
    · rw [heq hsimple]
  | _ => exact .mismatch

variable (site simple exposed) in
/-- Fields of the same names, each of a type that may take the place of the other one's. -/
def FieldsReplace {b c : Option String} (fields : Fields b) (others : Fields c) : Prop :=
  List.Forall₂ (fun field other => other.1 = field.1 ∧ other.2.required = field.2.required
    ∧ Replaces site simple exposed field.2.ty other.2.ty) fields.toList others.toList

theorem FieldsReplace.contains {b c : Option String} {fields : Fields b} {others : Fields c}
    (h : FieldsReplace site simple exposed fields others) (name : String) :
    fields.contains name = others.contains name := by
  have hnames : others.names = fields.names := map_fst_of_forall₂ h
  rw [Bool.eq_iff_iff, Fields.contains_iff_mem_names, Fields.contains_iff_mem_names, hnames]

theorem tracks_validateFields {source : Fields none}
    (hsource : exact → ∀ field ∈ source.toList, field.2.ty.everywhere simple = true)
    {b c : Option String} : (fields : Fields b) → (others : Fields c) →
    FieldsReplace site simple exposed fields others →
    Tracks exposed exact (validateFields site fields source) (validateFields site others source)
  | .nil, .nil, _ => by
    rw [validateFields, validateFields]
    exact .pure fun _ => rfl
  | .nil, .cons .., h => by cases h
  | .cons .., .nil, h => by cases h
  | .cons name _ ty _ tail, .cons name' _ ty' _ others, h => by
    obtain ⟨⟨hname, -, hty⟩, htail⟩ := List.forall₂_cons.mp h
    cases show name' = name from hname
    rw [validateFields, validateFields]
    cases hget : source.get? name with
    | none => exact .mismatch
    | some field =>
      have hfield := Fields.mem_toList_of_get? source hget
      refine ((hty.tracks field.ty).mono id fun hexact => hsource hexact _ hfield).bind
        fun _ _ _ _ hvalue => (tracks_validateFields hsource tail others htail).bind
          fun _ _ _ _ hvalues => .pure fun hexact => ?_
      rw [hvalue hexact, hvalues hexact]

theorem toOption_defaultFields {b c : Option String} : (fields : Fields b) → (others : Fields c) →
    FieldsReplace site simple exposed fields others →
    (defaultFields fields).toOption = (defaultFields others).toOption
  | .nil, .nil, _ => rfl
  | .nil, .cons .., h => by cases h
  | .cons .., .nil, h => by cases h
  | .cons name _ ty required tail, .cons name' _ ty' required' others, h => by
    obtain ⟨⟨hname, hrequired, hty⟩, htail⟩ := List.forall₂_cons.mp h
    cases show name' = name from hname
    cases show required' = required from hrequired
    have htail := toOption_defaultFields tail others htail
    rw [defaultFields, defaultFields]
    split
    · rw [toOption_bind, toOption_bind, hty.default]
      simp only [toOption_map, htail]
    · exact htail

theorem tracks_furtherEntry {rest other : Option Ty}
    (h : Option.Rel (Replaces site simple exposed) rest other) (isSealed : Bool) (field : String × Field) :
    Tracks exposed (field.2.ty.everywhere simple = true) (furtherEntry site rest isSealed field)
      (furtherEntry site other isSealed field) := by
  cases h with
  | none => exact .refl (told_furtherEntry site none isSealed field)
  | some h =>
    refine (h.tracks field.2.ty).bind fun _ _ _ _ heq => .pure fun hsimple => ?_
    rw [heq hsimple]

theorem replaces_record {expected others : Fields none} {rest other : Option Ty} (isSealed : Bool)
    (h : FieldsReplace site simple exposed expected others)
    (hrest : Option.Rel (Replaces site simple exposed) rest other) :
    Replaces site simple exposed (.record expected rest isSealed) (.record others other isSealed) := by
  refine ⟨rfl, ?_, fun inferred => ?_⟩
  · rw [Ty.default, Ty.default, toOption_map, toOption_map, toOption_defaultFields expected others h]
  · rw [validate, validate]
    refine tracks_unlessError (fun inferred _ => ?_) inferred
    cases inferred with
    | record fields fieldsRest fieldsSealed =>
      have hcontains : (fun field : String × Field => !expected.contains field.1)
          = fun field => !others.contains field.1 := funext fun field => by rw [h.contains]
      show Tracks exposed _ (validateFields site expected fields >>= fun declared =>
        (fields.toList.filter fun field => !expected.contains field.1).mapM
          (furtherEntry site rest isSealed) >>= fun further => pure (sealedOf (declared ++ further)))
        (validateFields site others fields >>= fun declared =>
        (fields.toList.filter fun field => !others.contains field.1).mapM
          (furtherEntry site other isSealed) >>= fun further => pure (sealedOf (declared ++ further)))
      rw [hcontains]
      have hfields : (Ty.record fields fieldsRest fieldsSealed).everywhere simple = true →
          ∀ field ∈ fields.toList, field.2.ty.everywhere simple = true := fun hsimple =>
        (everywhere_record.mp hsimple).2.1
      refine (tracks_validateFields hfields expected others h).bind fun _ _ _ _ hdeclared =>
        (Tracks.mapM fun field hfield => (tracks_furtherEntry hrest isSealed field).mono id
          fun hsimple => hfields hsimple field (List.mem_of_mem_filter hfield)).bind
        fun _ _ _ _ hfurther => .pure fun hsimple => ?_
      rw [hdeclared hsimple, hfurther hsimple]
    | _ => exact .mismatch

/-! ### Unions -/

/-- Unless it has just one member, the default of a union is nil, if it has one. -/
theorem toOption_default_union {members : List Ty} (h : members.length ≠ 1) :
    (Ty.union members).default.toOption
      = if containsNilAny members then some (.singleton .nil) else none := by
  have hdefault : (Ty.union members).default
      = if containsNilAny members then .ok (.singleton .nil) else .error (.union members) := by
    rcases members with - | ⟨only, - | ⟨second, rest⟩⟩
    · rfl
    · exact absurd rfl h
    · rfl
  rw [hdefault]
  split <;> rfl

theorem containsNilAny_append (members others : List Ty) :
    containsNilAny (members ++ others) = (containsNilAny members || containsNilAny others) := by
  induction members with
  | nil => rfl
  | cons ty members ih => rw [List.cons_append, containsNilAny, containsNilAny, ih, Bool.or_assoc]

theorem containsNilAny_eq {members others : List Ty}
    (h : List.Forall₂ (Replaces site simple exposed) members others) :
    containsNilAny members = containsNilAny others := by
  induction h with
  | nil => rfl
  | cons hfirst _ ih => rw [containsNilAny, containsNilAny, hfirst.containsNil, ih]

/-- Alternatives are tried quietly, and their results are compared: here only what is exact stays. -/
theorem replaces_union {members others : List Ty}
    (h : List.Forall₂ (Replaces site simple exposed) members others) :
    Replaces site simple False (.union members) (.union others) := by
  refine ⟨containsNilAny_eq h, ?_, fun inferred => ?_⟩
  · by_cases hlength : members.length = 1
    · obtain ⟨only, rfl⟩ := List.length_eq_one_iff.mp hlength
      rcases h with - | ⟨honly, - | -⟩
      exact honly.default
    · rw [toOption_default_union hlength, toOption_default_union (h.length_eq ▸ hlength),
        containsNilAny_eq h]
  · rw [validate, validate]
    refine tracks_unlessError (fun inferred _ => tracks_alternatives (tracks_choose ?_ ?_ False.elim))
      inferred
    -- a member fails where its counterpart does, so there are results on both sides or on none
    · induction h with
      | nil => rfl
      | cons hfirst _ ih =>
        obtain ⟨r, r', ds, es, hv, hw, hagree, -⟩ := hfirst.tracks inferred
        rw [results_cons, results_cons, hv.outcome_eq, hw.outcome_eq]
        cases hagree with
        | ok _ => simp [Except.toOption]
        | error e => exact ih
    · intro hsimple
      congr 1
      induction h with
      | nil => rfl
      | cons hfirst _ ih =>
        obtain ⟨r, r', ds, es, hv, hw, hagree, -⟩ := hfirst.tracks inferred
        rw [results_cons, results_cons, hv.outcome_eq, hw.outcome_eq, ih]
        cases hagree with
        | ok heq => rw [heq hsimple]
        | error e => rfl

theorem containsNil_effective : (ty : Ty) → ty.effective.containsNil = ty.containsNil
  | .reference _ referred => containsNil_effective referred
  | .intersection inner => containsNil_effective inner
  | .primitive _ | .array _ _ | .tuple _ _ | .record _ _ _ | .map _ | .table | .anydata | .json
  | .union _ | .finite _ | .error => rfl

theorem default_effective : (ty : Ty) → ty.effective.default = ty.default
  | .reference _ referred => default_effective referred
  | .intersection inner => default_effective inner
  | .primitive _ | .array _ _ | .tuple _ _ | .record _ _ _ | .map _ | .table | .anydata | .json
  | .union _ | .finite _ | .error => rfl

theorem validate_effective (site : Site) : (ty : Ty) →
    validate site ty.effective = validate site ty
  | .reference _ referred => validate_effective site referred
  | .intersection inner => validate_effective site inner
  | .primitive _ | .array _ _ | .tuple _ _ | .record _ _ _ | .map _ | .table | .anydata | .json
  | .union _ | .finite _ | .error => rfl

/-- What a named union gives is nothing, if its members give nothing, and else what is chosen from
what they give. -/
theorem outcome_named {named inferred : Ty} {members : List Ty}
    (hnamed : named.effective = .union members) (hlooked : Looked inferred) :
    results site inferred members = [] ∧ (outcome (validate site named inferred)).toOption = none
    ∨ results site inferred members ≠ [] ∧ ∃ ty,
      (outcome (validate site named inferred)).toOption = some ty
      ∧ Gives (choose site (distinct (results site inferred members))) ty := by
  have hgives : ∀ ty, outcome (validate site named inferred) = .ok ty
      ↔ Gives (choose site (distinct (results site inferred members))) ty := fun ty => by
    rw [← gives_iff_outcome (told_validate site named inferred), ← fitting_eq_distinct,
      ← validate_effective, hnamed, gives_union_iff hlooked]
  by_cases hnil : results site inferred members = []
  · refine Or.inl ⟨hnil, ?_⟩
    cases houtcome : outcome (validate site named inferred) with
    | error e => rfl
    | ok ty =>
      have h := (hgives ty).mp houtcome
      rw [hnil] at h
      exact absurd h not_gives_throw
  · obtain ⟨ty, ds, htells, -⟩ := exists_tells_choose site hnil
    refine Or.inr ⟨hnil, ty, ?_, ds, htells⟩
    rw [(hgives ty).mpr ⟨ds, htells⟩]
    rfl

/-- What is chosen from some results may stand in for them among others. With at most one result this
changes nothing; with several, what was ambiguous still is. -/
theorem tracks_choose_chosen {before members after : List Ty} {ty : Ty}
    (hgives : Gives (choose site (distinct members)) ty) (hfew : exact → (distinct members).length ≤ 1) :
    Tracks exposed exact (choose site (distinct (before ++ ty :: after)))
      (choose site (distinct (before ++ (members ++ after)))) := by
  have hmem := mem_of_gives_choose hgives
  have hne : members ≠ [] := by
    rintro rfl
    cases hmem
  have honly : distinct members = [ty] →
      distinct (before ++ ty :: after) = distinct (before ++ (members ++ after)) := fun honly => by
    rw [← distinct_append_distinct _ members, honly, List.singleton_append]
  refine tracks_choose (by simp [hne]) (fun hexact => honly ?_) fun _ hambiguous => ?_
  · obtain ⟨other, hother⟩ := List.length_eq_one_iff.mp
      (Nat.le_antisymm (hfew hexact) (List.length_pos_of_mem hmem))
    rw [hother] at hmem ⊢
    rw [List.mem_singleton.mp hmem]
  · rcases standsIn_of_gives_choose hgives with h | h
    · rw [ambiguous_iff, ← honly h, ← ambiguous_iff]
      exact hambiguous
    · exact hambiguous.of_standsIn h

theorem containsNilAny_named {before after members : List Ty} {named : Ty}
    (hnamed : named.effective = .union members) :
    containsNilAny (before ++ named :: after) = containsNilAny (before ++ (members ++ after)) := by
  have hnil : named.containsNil = containsNilAny members := by
    rw [← containsNil_effective, hnamed]
    rfl
  rw [containsNilAny_append, containsNilAny_append, containsNilAny_append, containsNilAny, hnil]

theorem toOption_default_named {before after members : List Ty} {named : Ty}
    (hnamed : named.effective = .union members) (hmembers : members ≠ []) :
    (Ty.union (before ++ named :: after)).default.toOption
      = (Ty.union (before ++ (members ++ after))).default.toOption := by
  -- the name is the only member, or there are two members in any case
  by_cases hothers : before = [] ∧ after = []
  · obtain ⟨rfl, rfl⟩ := hothers
    rw [List.append_nil]
    show named.default.toOption = (Ty.union members).default.toOption
    rw [← hnamed, default_effective]
  · have hpos := List.length_pos_of_ne_nil hmembers
    have hlength : 0 < before.length + after.length := by
      rcases not_and_or.mp hothers with h | h <;> have := List.length_pos_of_ne_nil h <;> omega
    rw [toOption_default_union (by simp; omega), toOption_default_union (by simp; omega),
      containsNilAny_named hnamed]

/-- **The members of a named union may take the place of the name.** A part of an inferred type is
simple if the members give at most one result for it. -/
theorem replaces_named {before after members : List Ty} {named : Ty}
    (hnamed : named.effective = .union members) (hmembers : members ≠ [])
    (hsimple : ∀ part, simple part = true → (fitting site part members []).length ≤ 1) :
    Replaces site simple exposed (.union (before ++ named :: after))
      (.union (before ++ (members ++ after))) := by
  refine ⟨containsNilAny_named hnamed, toOption_default_named hnamed hmembers, fun inferred => ?_⟩
  rw [validate, validate]
  refine tracks_unlessError (fun inferred hlooked => tracks_alternatives ?_) inferred
  rw [results_append, results_append, results_append, results_cons]
  rcases outcome_named hnamed hlooked with ⟨hresults, houtcome⟩ | ⟨-, ty, houtcome, hgives⟩
  · rw [hresults, houtcome]
    exact .refl (announces_choose site _ id : Announces site False _).told
  · rw [houtcome, Option.toList_some, List.singleton_append]
    refine tracks_choose_chosen hgives fun hall => ?_
    rw [← fitting_eq_distinct]
    exact hsimple inferred (everywhere_self hall)

end Replaces

/-! ## Types with a name spelled out -/

/-- **A type is another one with a name spelled out**: in one place a member of a union, which is itself
a union of `members` under a name, is replaced by these. The place is exposed unless the union is part
of an alternative of another one. -/
inductive SpelledOut (members : List Ty) : (exposed : Bool) → (ty spelled : Ty) → Prop where
  | named {before after : List Ty} {name : Ty} (h : name.effective = .union members) :
      SpelledOut members true (.union (before ++ name :: after)) (.union (before ++ (members ++ after)))
  | alternative {exposed : Bool} {before after : List Ty} {ty spelled : Ty}
      (h : SpelledOut members exposed ty spelled) :
      SpelledOut members false (.union (before ++ ty :: after)) (.union (before ++ spelled :: after))
  | elem {exposed : Bool} {elem spelled : Ty} {size : ArraySize}
      (h : SpelledOut members exposed elem spelled) :
      SpelledOut members exposed (.array elem size) (.array spelled size)
  | member {exposed : Bool} {before after : List Ty} {ty spelled : Ty} {rest : Option Ty}
      (h : SpelledOut members exposed ty spelled) :
      SpelledOut members exposed (.tuple (before ++ ty :: after) rest)
        (.tuple (before ++ spelled :: after) rest)
  | tupleRest {exposed : Bool} {positions : List Ty} {ty spelled : Ty}
      (h : SpelledOut members exposed ty spelled) :
      SpelledOut members exposed (.tuple positions (some ty)) (.tuple positions (some spelled))
  | constraint {exposed : Bool} {ty spelled : Ty} (h : SpelledOut members exposed ty spelled) :
      SpelledOut members exposed (.map ty) (.map spelled)
  | field {exposed : Bool} {fields others : Fields none} {before after : List (String × Field)}
      {name : String} {required : Bool} {ty spelled : Ty} {rest : Option Ty} {isSealed : Bool}
      (h : SpelledOut members exposed ty spelled)
      (hfields : fields.toList = before ++ (name, ⟨ty, required⟩) :: after)
      (hothers : others.toList = before ++ (name, ⟨spelled, required⟩) :: after) :
      SpelledOut members exposed (.record fields rest isSealed) (.record others rest isSealed)
  | recordRest {exposed : Bool} {fields : Fields none} {ty spelled : Ty} {isSealed : Bool}
      (h : SpelledOut members exposed ty spelled) :
      SpelledOut members exposed (.record fields (some ty) isSealed)
        (.record fields (some spelled) isSealed)
  | referred {exposed : Bool} {name : String} {ty spelled : Ty}
      (h : SpelledOut members exposed ty spelled) :
      SpelledOut members exposed (.reference name ty) (.reference name spelled)
  | inner {exposed : Bool} {ty spelled : Ty} (h : SpelledOut members exposed ty spelled) :
      SpelledOut members exposed (.intersection ty) (.intersection spelled)

theorem forall₂_replace {α : Type} {R : α → α → Prop} (hrefl : ∀ a, R a a) (before after : List α)
    {a b : α} (h : R a b) : List.Forall₂ R (before ++ a :: after) (before ++ b :: after) := by
  induction before with
  | nil => exact .cons h (List.forall₂_same.mpr fun a _ => hrefl a)
  | cons first before ih => exact .cons (hrefl first) ih

/-- **A type with a name spelled out may take the place of the type.** -/
theorem SpelledOut.replaces {site : Site} {simple : Ty → Bool} {members : List Ty} {exposed : Bool}
    {ty spelled : Ty} (h : SpelledOut members exposed ty spelled) (hmembers : members ≠ [])
    (hsimple : ∀ part, simple part = true → (fitting site part members []).length ≤ 1) :
    Replaces site simple (exposed = true) ty spelled := by
  have hrest : ∀ {exposed : Prop} (rest : Option Ty),
      Option.Rel (Replaces site simple exposed) rest rest := fun rest => by
    cases rest with
    | none => exact .none
    | some ty => exact .some (.refl ty)
  have hfield : ∀ {exposed : Prop} (field : String × Field), field.1 = field.1
      ∧ field.2.required = field.2.required ∧ Replaces site simple exposed field.2.ty field.2.ty :=
    fun field => ⟨rfl, rfl, .refl _⟩
  induction h with
  | named h => exact replaces_named h hmembers hsimple
  | alternative _ ih =>
    exact (replaces_union (forall₂_replace .refl _ _ ih)).mono fun h => Bool.false_ne_true h
  | elem _ ih => exact replaces_array _ ih
  | member _ ih => exact replaces_tuple (forall₂_replace .refl _ _ ih) (hrest _)
  | tupleRest _ ih => exact replaces_tuple (List.forall₂_same.mpr fun ty _ => .refl ty) (.some ih)
  | constraint _ ih => exact replaces_map ih
  | field _ hfields hothers ih =>
    refine replaces_record _ ?_ (hrest _)
    unfold FieldsReplace
    rw [hfields, hothers]
    exact forall₂_replace hfield _ _ ⟨rfl, rfl, ih⟩
  | recordRest _ ih =>
    exact replaces_record _ (List.forall₂_same.mpr fun field _ => hfield field) (.some ih)
  | referred _ ih => exact ⟨ih.containsNil, ih.default, ih.tracks⟩
  | inner _ ih => exact ⟨ih.containsNil, ih.default, ih.tracks⟩

end Ty

/-- **Spelling out a name in a union keeps what is taken, and brings ambiguities to light.** Let a union
under a name be a member of another union, and let its own members, of which there are some, take its
place. In every state validation then fails as before or succeeds as before. A choice that was
ambiguous still is, unless the place is part of an alternative of a further union. And if no part of the
inferred type fits the members in different ways, then the result is the same, and a choice is
ambiguous if and only if it was. -/
theorem spelled_out_validation (p : Program) (s : Checker) (members : List Ty) (exposed : Bool)
    (expected spelled inferred : Ty) (hmembers : members ≠ [])
    (hspelled : Ty.SpelledOut members exposed expected spelled) :
    ∃ outcome outcome' t t' new new',
      (Checker.validType p expected inferred).run s = some (outcome, t)
      ∧ (Checker.validType p spelled inferred).run s = some (outcome', t')
      ∧ t.journal.diagnostics.toList = s.journal.diagnostics.toList ++ new
      ∧ t'.journal.diagnostics.toList = s.journal.diagnostics.toList ++ new'
      ∧ (∀ e, outcome = .error e ↔ outcome' = .error e)
      ∧ (exposed = true → HasChoice new → HasChoice new')
      ∧ (inferred.everywhere (fun part =>
          (fitting ⟨s.anchor, p.settings.ambiguity⟩ part members []).length ≤ 1) = true →
        outcome = outcome' ∧ (HasChoice new ↔ HasChoice new')) := by
  obtain ⟨r, r', ds, es, htells, htells', hagree, hkept, hmade⟩ :=
    (hspelled.replaces hmembers fun part hpart => of_decide_eq_true hpart).tracks inferred
  obtain ⟨journal, hrun, hadds⟩ := htells.run_validType
  obtain ⟨journal', hrun', hadds'⟩ := htells'.run_validType
  refine ⟨r, r', _, _, _, _, hrun, hrun', hadds.diagnostics, hadds'.diagnostics, ?_, ?_, ?_⟩
  · cases hagree with
    | ok _ => simp
    | error e => simp
  · intro hexposed
    split
    · exact id
    · exact hkept (Or.inl hexposed)
  · intro hsimple
    refine ⟨?_, ?_⟩
    · cases hagree with
      | ok heq => rw [heq hsimple]
      | error e => rfl
    · split
      · rfl
      · exact ⟨hkept (Or.inr hsimple), hmade hsimple⟩

section Examples

/-- A union with rows of two kinds, by name. -/
def namedRow : Ty := .union [.reference "Row" looseRow, .primitive .string]

/-- The same union with the name spelled out. -/
def spelledRow : Ty :=
  .union [.array (.primitive .int) .unbounded, .array (.primitive .int) (.closed 2), .primitive .string]

theorem spelledOut_row : Ty.SpelledOut looseRow.members true namedRow spelledRow := by
  have h : Ty.SpelledOut looseRow.members true
      (.union ([] ++ .reference "Row" looseRow :: [.primitive .string]))
      (.union ([] ++ (looseRow.members ++ [.primitive .string]))) := .named rfl
  exact h

/-- A label with a row of two integers. -/
def labelled : Ty :=
  .tuple [.singleton (.ofScalar (.string "a")),
    .tuple [.singleton (.ofScalar (.int 1)), .singleton (.ofScalar (.int 2))] none] none

/-- A row of two integers is taken in one way, whether or not its type has a name. -/
theorem labelled_row_taken_alike :
    ∃ t t', (Checker.validType ⟨.empty, [], .default⟩
        (.reference "Line" (.tuple [.primitive .string, namedRow] none)) labelled).run atWork
        = some (.ok labelled, t)
      ∧ (Checker.validType ⟨.empty, [], .default⟩
        (.reference "Line" (.tuple [.primitive .string, spelledRow] none)) labelled).run atWork
        = some (.ok labelled, t')
      ∧ t.journal.diagnostics.toList = [] ∧ ¬ HasChoice t'.journal.diagnostics.toList := by
  have hline : Ty.SpelledOut looseRow.members true
      (.tuple ([.primitive .string] ++ namedRow :: []) none)
      (.tuple ([.primitive .string] ++ spelledRow :: []) none) := .member spelledOut_row
  obtain ⟨outcome, outcome', t, t', new, new', hrun, hrun', hnew, hnew', -, -, hsame⟩ :=
    spelled_out_validation ⟨.empty, [], .default⟩ atWork looseRow.members true
      (.reference "Line" (.tuple [.primitive .string, namedRow] none))
      (.reference "Line" (.tuple [.primitive .string, spelledRow] none)) labelled
      (List.cons_ne_nil _ _) (.referred hline)
  cases hrun
  obtain ⟨rfl, hchoice⟩ := hsame rfl
  refine ⟨_, t', rfl, hrun', rfl, ?_⟩
  have hnew : [] = new := hnew
  have hnew' : t'.journal.diagnostics.toList = new' := hnew'
  rw [hnew', ← hchoice, ← hnew]
  rintro ⟨d, hd, -⟩
  cases hd

/-- A pair of decimals by name, or a float. -/
def namedPair : Ty :=
  .union [.reference "Pair" (.union [.singleton (.ofScalar (.decimal ⟨1, 0⟩)),
    .singleton (.ofScalar (.decimal ⟨2, 0⟩))]), .primitive .float]

/-- The same with the name spelled out. -/
def spelledPair : Ty :=
  .union [.singleton (.ofScalar (.decimal ⟨1, 0⟩)), .singleton (.ofScalar (.decimal ⟨2, 0⟩)),
    .primitive .float]

/-- A number that may be read as one of two decimals or as a float. -/
def threeWays : Ty :=
  .union [.singleton (.ofScalar (.decimal ⟨1, 0⟩)), .singleton (.ofScalar (.decimal ⟨2, 0⟩)),
    .singleton (.ofScalar (.float 3.0))]

/-- **A name hides an ambiguity.** The list `[1]` fits a row in two ways. Where the two kinds of row have
a name, this is not reported; with the name spelled out it is. A name for no members at all decides
whether a place has a default. And in an alternative a name may be what makes a choice ambiguous: with
the name spelled out, both alternatives come to the same. -/
theorem name_hides_ambiguity :
    (Ty.SpelledOut looseRow.members true namedRow spelledRow
      ∧ ∃ ty ty' t t', (Checker.validType ⟨.empty, [], .default⟩ namedRow
          (.tuple [.singleton (.ofScalar (.int 1))] none)).run atWork = some (.ok ty, t)
        ∧ (Checker.validType ⟨.empty, [], .default⟩ spelledRow
          (.tuple [.singleton (.ofScalar (.int 1))] none)).run atWork = some (.ok ty', t')
        ∧ t.journal.diagnostics = #[]
        ∧ t'.journal.diagnostics.toList.map (·.problem.code) = [.ambiguousType])
    ∧ (∃ ty t t', (Checker.validType ⟨.empty, [], .default⟩
          (.array (.union [.reference "None" (.union []), .primitive .int]) (.closed 1))
          Ty.emptyTuple).run atWork = some (.error .reported, t)
        ∧ (Checker.validType ⟨.empty, [], .default⟩
          (.array (.union [.primitive .int]) (.closed 1)) Ty.emptyTuple).run atWork
          = some (.ok ty, t'))
    ∧ ∃ ty ty' t t', (Checker.validType ⟨.empty, [], .default⟩
          (.union [.tuple [namedPair] none, .tuple [.primitive .decimal] none])
          (.tuple [threeWays] none)).run atWork = some (.ok ty, t)
        ∧ (Checker.validType ⟨.empty, [], .default⟩
          (.union [.tuple [spelledPair] none, .tuple [.primitive .decimal] none])
          (.tuple [threeWays] none)).run atWork = some (.ok ty', t')
        ∧ t.journal.diagnostics.toList.map (·.problem.code) = [.ambiguousType]
        ∧ t'.journal.diagnostics = #[] :=
  ⟨⟨spelledOut_row, _, _, _, _, rfl, rfl, rfl, rfl⟩, ⟨_, _, _, rfl, rfl⟩,
    _, _, _, _, rfl, rfl, rfl, rfl⟩

end Examples

end ConstNarrow
