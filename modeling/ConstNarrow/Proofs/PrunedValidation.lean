/-
**Validation of pruned types.**

A declared type that holds only numbers of certain kinds does not tell an inferred type from the same
type with the readings of other kinds dropped. Two validations are compared, run on journals that
may differ in their logs: they come to the same result, and report the same. And what has no reading
of those kinds where it has a number is not taken at all.

The trap is in the declared types that take whatever was inferred: `anydata`, `json`, and records
that are open without a rest type. They keep the first reading, so a reading that is dropped can be
missed. The first two count as holding all kinds, so that nothing is pruned where they occur. The open
records do not, and have to be left out.
-/
import ConstNarrow.Proofs.Pruning

set_option autoImplicit false

namespace ConstNarrow

open Validation

/-! ## Journals with the same reports -/

/-- Two journals hold the same diagnostics and are muted equally often. Their logs may differ. -/
structure Journal.SameReports (j k : Journal) : Prop where
  diagnostics : k.diagnostics = j.diagnostics
  muteDepth : k.muteDepth = j.muteDepth

namespace Journal.SameReports

variable {j k l : Journal}

theorem refl (j : Journal) : j.SameReports j := ⟨rfl, rfl⟩

theorem trans (h : j.SameReports k) (h' : k.SameReports l) : j.SameReports l :=
  ⟨h'.diagnostics.trans h.diagnostics, h'.muteDepth.trans h.muteDepth⟩

theorem symm (h : j.SameReports k) : k.SameReports j := ⟨h.diagnostics.symm, h.muteDepth.symm⟩

theorem note (j : Journal) (e : Event) : j.SameReports (j.note e) := ⟨rfl, rfl⟩

theorem noteAll (j : Journal) (es : List Event) : j.SameReports (j.noteAll es) :=
  ⟨j.diagnostics_noteAll es, j.muteDepth_noteAll es⟩

theorem report (h : j.SameReports k) (d : Diagnostic) : (j.report d).SameReports (k.report d) := by
  refine ⟨?_, ?_⟩
  · rw [diagnostics_report, diagnostics_report, isMuted, isMuted, h.diagnostics, h.muteDepth]
  · rw [muteDepth_report, muteDepth_report, h.muteDepth]

theorem mute (h : j.SameReports k) : j.mute.SameReports k.mute :=
  ⟨h.diagnostics, congrArg (· + 1) h.muteDepth⟩

theorem unmute (h : j.SameReports k) : j.unmute.SameReports k.unmute :=
  ⟨h.diagnostics, congrArg (· - 1) h.muteDepth⟩

end Journal.SameReports

/-! ## Validations that come to the same -/

namespace Validation

variable {α β γ : Type}

/-- Two validations come to the same result and report the same, on journals with the same
reports. -/
def Concur (v w : Validation α) : Prop :=
  ∀ j k : Journal, j.SameReports k →
    (w.run k).1 = (v.run j).1 ∧ (v.run j).2.SameReports (w.run k).2

namespace Concur

variable {v w : Validation α}

protected theorem pure (a : α) : Concur (pure a : Validation α) (pure a) := fun _ _ h => ⟨rfl, h⟩

theorem mismatch : Concur (throw .mismatch : Validation α) (throw .mismatch) := fun _ _ h => ⟨rfl, h⟩

/-- **Validations that concur compose**, if those that follow concur on every result of the first. -/
protected theorem bind {f g : α → Validation β} (h : Concur v w) (hf : ∀ a, Concur (f a) (g a)) :
    Concur (v >>= f) (w >>= g) := by
  intro j k hjk
  obtain ⟨hresult, hreports⟩ := h j k hjk
  rcases hv : v.run j with ⟨r, j'⟩
  rcases hw : w.run k with ⟨r', k'⟩
  rw [hv, hw] at hresult hreports
  cases hresult
  cases r with
  | error e =>
    rw [run_bind_error hv, run_bind_error hw]
    exact ⟨rfl, hreports⟩
  | ok a =>
    rw [run_bind_ok hv, run_bind_ok hw]
    exact hf a j' k' hreports

/-- Something is written to the journals. -/
theorem write {f g : Journal → Journal} (h : ∀ j k, j.SameReports k → (f j).SameReports (g k)) :
    Concur (modify f : Validation Unit) (modify g) :=
  fun j k hjk => ⟨rfl, h j k hjk⟩

theorem attempt {v w : Validation Ty} (h : Concur v w) :
    Concur (liftM (Validation.attempt v) : Validation (Option Ty)) (liftM (Validation.attempt w)) := by
  intro j k hjk
  obtain ⟨hresult, hreports⟩ := h j.mute k.mute hjk.mute
  exact ⟨congrArg (fun r => Except.ok (Except.toOption r)) hresult, hreports.unmute⟩

theorem mapM {f : α → Validation γ} {g : β → Validation γ} {l : List α} {l' : List β}
    (h : List.Forall₂ (fun a b => Concur (f a) (g b)) l l') : Concur (l.mapM f) (l'.mapM g) := by
  induction h with
  | nil =>
    rw [List.mapM_nil, List.mapM_nil]
    exact .pure _
  | cons hfirst _ ih =>
    rw [List.mapM_cons, List.mapM_cons]
    exact hfirst.bind fun a => ih.bind fun as => .pure _

end Concur

theorem concur_note (e : Event) : Concur (note e) (note e) :=
  .write fun j k h => ((Journal.SameReports.note j e).symm.trans h).trans (.note k e)

theorem concur_report (d : Diagnostic) : Concur (report d) (report d) := .write fun _ _ h => h.report d

theorem concur_narrow (ty : Ty) : Concur (narrow ty) (narrow ty) :=
  (Concur.write fun j k h => ((Journal.SameReports.noteAll j _).symm.trans h).trans (.noteAll k _)).bind
    fun _ => .pure _

theorem concur_fill (site : Site) (ty : Ty) : Concur (fill site ty) (fill site ty) := by
  unfold fill
  cases ty.default with
  | ok value => exact .pure _
  | error part =>
    cases site.anchor with
    | some location => exact (concur_report _).bind fun _ => fun _ _ h => ⟨rfl, h⟩
    | none => exact (concur_note _).bind fun _ => .mismatch

theorem concur_choose (site : Site) (fitting : List Ty) :
    Concur (choose site fitting) (choose site fitting) := by
  unfold choose
  split
  · exact .mismatch
  · exact .pure _
  · split
    · exact .pure _
    · refine Concur.bind ?_ fun _ => .pure _
      unfold reportChoice
      cases site.anchor with
      | some location => exact concur_report _
      | none => exact concur_note _

theorem concur_padArray (site : Site) (elem : Ty) (size : ArraySize) (members : List Ty) :
    Concur (padArray site elem size members) (padArray site elem size members) := by
  unfold padArray
  cases size with
  | closed n =>
    dsimp only
    split
    · exact (concur_fill site elem).bind fun _ => .pure _
    · exact .pure _
  | unbounded | inferred => exact .pure _

end Validation

/-! ## Declared types -/

namespace Ty

/-- Whether a type is no record that takes further fields of any type. -/
def isNotOpen : Ty → Bool
  | .record _ none false => false
  | _ => true

/-- Whether a type on its own holds no numbers but those of some kinds, and takes nothing as it was
inferred. -/
def holdsOnly (kinds : List NumericKind) : Ty → Bool
  | .primitive p => !p.isNumeric || p.isAmong kinds
  | .finite values => values.all fun s => !s.base.isNumeric || s.base.isAmong kinds
  | .anydata => false
  | .json => false
  | .error => false
  | .record _ none false => false
  | _ => true

variable {kinds : List NumericKind}

theorem mem_kindsWithinList {kind : NumericKind} {tys : List Ty} {ty : Ty} (hty : ty ∈ tys)
    (h : kind ∈ ty.kindsWithin) : kind ∈ kindsWithinList tys := by
  induction tys with
  | nil => cases hty
  | cons first tys ih =>
    rw [kindsWithinList, List.mem_append]
    rcases List.mem_cons.mp hty with rfl | hty
    · exact Or.inl h
    · exact Or.inr (ih hty)

theorem mem_kindsWithinOption {kind : NumericKind} {rest : Option Ty} {ty : Ty} (hty : ty ∈ rest)
    (h : kind ∈ ty.kindsWithin) : kind ∈ kindsWithinOption rest := by
  rw [Option.mem_def.mp hty]
  exact h

theorem mem_kindsWithinFields {kind : NumericKind} {bound : Option String} {entry : String × Field} :
    (fields : Fields bound) → entry ∈ fields.toList → kind ∈ entry.2.ty.kindsWithin →
      kind ∈ kindsWithinFields fields
  | .nil, hentry, _ => by cases hentry
  | .cons _ _ _ _ tail, hentry, h => by
    rw [kindsWithinFields, List.mem_append]
    rcases List.mem_cons.mp hentry with rfl | hentry
    · exact Or.inl h
    · exact Or.inr (mem_kindsWithinFields tail hentry h)

theorem isAmong_of_numericKind? {p : Primitive}
    (h : ∀ kind, p.numericKind? = some kind → kind ∈ kinds) :
    (!p.isNumeric || p.isAmong kinds) = true := by
  cases hkind : p.numericKind? with
  | none => simp [Primitive.isNumeric, hkind]
  | some kind => simp [Primitive.isAmong, hkind, h kind hkind]

/-- **A type in which a kind does not occur holds only numbers of the kinds that do**, unless it takes
further fields as they were inferred. -/
theorem everywhere_holdsOnly {absent : NumericKind} (habsent : absent ∉ kinds) {ty : Ty}
    (hnoError : ty.everywhere isNoError = true) (hnotOpen : ty.everywhere isNotOpen = true)
    (h : ∀ kind ∈ ty.kindsWithin, kind ∈ kinds) : ty.everywhere (holdsOnly kinds) = true := by
  induction ty using induction_parts with
  | primitive p =>
    refine isAmong_of_numericKind? fun kind hkind => h kind ?_
    rw [kindsWithin, hkind]
    exact List.mem_singleton_self kind
  | finite values =>
    refine List.all_eq_true.mpr fun s hs => isAmong_of_numericKind? fun kind hkind => h kind ?_
    rw [kindsWithin]
    exact List.mem_filterMap.mpr ⟨s, hs, hkind⟩
  -- whatever holds all kinds cannot occur
  | anydata | json => exact absurd (h absent (by cases absent <;> simp [kindsWithin])) habsent
  | error => cases hnoError
  | table => rfl
  | array elem size ih =>
    rw [everywhere_array] at hnoError hnotOpen ⊢
    exact ⟨rfl, ih hnoError.2 hnotOpen.2 h⟩
  | map constraint ih =>
    rw [everywhere_map] at hnoError hnotOpen ⊢
    exact ⟨rfl, ih hnoError.2 hnotOpen.2 h⟩
  | reference name referred ih =>
    rw [everywhere_reference] at hnoError hnotOpen ⊢
    exact ⟨rfl, ih hnoError.2 hnotOpen.2 h⟩
  | intersection inner ih =>
    rw [everywhere_intersection] at hnoError hnotOpen ⊢
    exact ⟨rfl, ih hnoError.2 hnotOpen.2 h⟩
  | union members ih =>
    rw [everywhere_union] at hnoError hnotOpen ⊢
    exact ⟨rfl, fun ty hty => ih ty hty (hnoError.2 ty hty) (hnotOpen.2 ty hty) fun kind hkind =>
      h kind (mem_kindsWithinList hty hkind)⟩
  | tuple members rest ih ihrest =>
    rw [everywhere_tuple] at hnoError hnotOpen ⊢
    rw [kindsWithin] at h
    refine ⟨rfl, fun ty hty => ih ty hty (hnoError.2.1 ty hty) (hnotOpen.2.1 ty hty) fun kind hkind => ?_,
      fun ty hty => ihrest ty hty (hnoError.2.2 ty hty) (hnotOpen.2.2 ty hty) fun kind hkind => ?_⟩
    · exact h kind (List.mem_append_left _ (mem_kindsWithinList hty hkind))
    · exact h kind (List.mem_append_right _ (mem_kindsWithinOption hty hkind))
  | record fields rest isSealed ih ihrest =>
    rw [everywhere_record] at hnoError hnotOpen ⊢
    rw [kindsWithin] at h
    refine ⟨?_, fun entry hentry => ih entry hentry (hnoError.2.1 entry hentry)
        (hnotOpen.2.1 entry hentry) fun kind hkind => ?_,
      fun ty hty => ihrest ty hty (hnoError.2.2 ty hty) (hnotOpen.2.2 ty hty) fun kind hkind => ?_⟩
    · -- a record that is not open holds nothing of its own
      have hclosed := hnotOpen.1
      cases rest with
      | some ty => rfl
      | none =>
        cases isSealed with
        | true => rfl
        | false => cases hclosed
    · exact h kind (List.mem_append_left _ (mem_kindsWithinFields fields hentry hkind))
    · exact h kind (List.mem_append_right _ (mem_kindsWithinOption hty hkind))

theorem isAmong_of_holdsOnly {p : Primitive} (h : (!p.isNumeric || p.isAmong kinds) = true)
    (hnumeric : p.isNumeric = true) : p.isAmong kinds = true := by
  rw [hnumeric] at h
  exact h

end Ty

/-! ## What has no reading left is not taken -/

namespace Ty.Unfit

variable {kinds : List NumericKind}

theorem effective_eq {ty : Ty} (h : Unfit kinds ty) : ty.effective = ty := by
  cases h with
  | choice => exact effective_ofValues _
  | member | field => rfl

theorem member_of_tuple {members : List Ty} {rest : Option Ty} (h : Unfit kinds (.tuple members rest)) :
    ∃ ty ∈ members, Unfit kinds ty := by
  generalize hty : Ty.tuple members rest = ty at h
  cases h with
  | choice => exact absurd hty.symm (ofValues_ne_tuple _ _ _)
  | member hmember h =>
    cases hty
    exact ⟨_, hmember, h⟩
  | field => cases hty

theorem field_of_record {fields : Fields none} {rest : Option Ty} {isSealed : Bool}
    (h : Unfit kinds (.record fields rest isSealed)) :
    ∃ entry ∈ fields.toList, Unfit kinds entry.2.ty := by
  generalize hty : Ty.record fields rest isSealed = ty at h
  cases h with
  | choice => exact absurd hty.symm (ofValues_ne_record _ _ _ _)
  | member => cases hty
  | field hfield h =>
    cases hty
    exact ⟨_, Fields.mem_toList_of_get? fields hfield, h⟩

theorem ne_error {ty : Ty} (h : Unfit kinds ty) : ty ≠ .error := by
  rintro rfl
  generalize hty : Ty.error = ty at h
  cases h with
  | @choice values _ _ => rcases values with - | ⟨s, - | ⟨t, values⟩⟩ <;> cases hty
  | member | field => cases hty

/-- None of the readings lies in the domain of a primitive of one of the kinds. -/
theorem not_among {values : List Singleton} (h : Selects kinds values []) {s : Singleton}
    (hs : s ∈ values) {p : Primitive} (hdomain : s.base.domain = p.domain)
    (hp : (!p.isNumeric || p.isAmong kinds) = true) : False := by
  have hnumeric : p.isNumeric = true := Primitive.isNumeric_congr hdomain ▸ h.numeric s hs
  have hamong : s.base.isAmong kinds = true :=
    Primitive.isAmong_congr hdomain ▸ isAmong_of_holdsOnly hp hnumeric
  cases (h.mem s).mpr ⟨hs, hamong⟩

theorem not_isAssignable {ty member : Ty} (h : Unfit kinds ty) (hmember : member ∈ ty.unionMembers)
    {p : Primitive} (hp : (!p.isNumeric || p.isAmong kinds) = true)
    (hfits : member.isAssignable (.primitive p) = true) : False := by
  cases h with
  | choice _ hselects =>
    rw [unionMembers_ofValues] at hmember
    obtain ⟨s, hs, rfl⟩ := List.mem_map.mp hmember
    exact not_among hselects hs (Singleton.domain_of_fits (fits_of_accepts hfits)) hp
  | member | field =>
    rw [List.mem_singleton.mp hmember] at hfits
    cases hfits

end Ty.Unfit

/-- Every member that was inferred meets one of the members that are expected, or the rest type. -/
theorem MembersMade.exists_meets {meets : (result expected inferred : Ty) → Prop}
    {fills : (value expected : Ty) → Prop} {rest : Option Ty} {expected inferred results : List Ty}
    (h : MembersMade meets fills rest expected inferred results) :
    ∀ ty ∈ inferred, ∃ result own, (own ∈ expected ∨ own ∈ rest) ∧ meets result own ty := by
  induction h with
  | further hall =>
    intro ty hty
    obtain ⟨result, -, own, hown, hmeets⟩ := exists_of_mem_right hall.flip hty
    exact ⟨result, own, Or.inr hown, hmeets⟩
  | filled => exact fun _ hty => (by cases hty)
  | matched hfirst _ ih =>
    refine List.forall_mem_cons.mpr ⟨⟨_, _, Or.inl List.mem_cons_self, hfirst⟩, fun ty hty => ?_⟩
    obtain ⟨result, own, hown, hmeets⟩ := ih ty hty
    exact ⟨result, own, hown.imp_left (List.mem_cons_of_mem _), hmeets⟩

/-- **A declared type that holds only numbers of some kinds takes nothing that has a number without a
reading of these kinds.** -/
def Review.fitting (kinds : List NumericKind) : Review fun _ => False where
  given := fun _ => True
  declarable := fun _ => true
  meets := fun _ expected inferred =>
    expected.everywhere (Ty.holdsOnly kinds) = true → ¬ inferred.Unfit kinds
  fills := fun _ _ => True
  lasts := fun _ _ _ h => h
  given_effective := fun _ _ => trivial
  given_tuple := fun _ _ _ _ _ => trivial
  given_record := fun _ _ _ _ _ _ => trivial
  looked := fun _ _ _ _ h hexpected hunfit => h hexpected (hunfit.effective_eq.symm ▸ hunfit)
  given_error := fun _ _ _ hunfit => hunfit.ne_error rfl
  declarable_error := fun _ _ _ hexpected => by cases hexpected
  default := fun _ _ _ _ => trivial
  reference := fun _ _ _ _ h hexpected => h (Ty.everywhere_reference.mp hexpected).2
  intersection := fun _ _ _ h hexpected => h (Ty.everywhere_intersection.mp hexpected).2
  array := fun _ _ _ _ _ _ hresults _ _ hexpected hunfit => by
    obtain ⟨ty, hty, hunfit⟩ := hunfit.member_of_tuple
    obtain ⟨_, -, hmeets⟩ := exists_of_mem_right hresults.flip hty
    exact hmeets (Ty.everywhere_array.mp hexpected).2 hunfit
  tuple := fun _ _ _ _ _ hmade hexpected hunfit => by
    obtain ⟨ty, hty, hunfit⟩ := hunfit.member_of_tuple
    obtain ⟨_, own, hown, hmeets⟩ := hmade.exists_meets ty hty
    obtain ⟨-, hmembers, hrest⟩ := Ty.everywhere_tuple.mp hexpected
    exact hmeets (hown.elim (hmembers own) (hrest own)) hunfit
  map := fun _ _ _ _ _ hentries hexpected hunfit => by
    obtain ⟨entry, hentry, hunfit⟩ := hunfit.field_of_record
    obtain ⟨_, -, -, hmeets⟩ := exists_of_mem_right hentries.flip hentry
    exact hmeets (Ty.everywhere_map.mp hexpected).2 hunfit
  record := fun fields rest isSealed source _ _ declared further hdeclared hfurther hexpected hunfit => by
    obtain ⟨entry, hentry, hunfit⟩ := hunfit.field_of_record
    obtain ⟨hown, hfields, hrest⟩ := Ty.everywhere_record.mp hexpected
    have hnamed : List.Forall₂ (fun field entry => entry.1 = field.1
        ∧ ∃ own, source.get? field.1 = some own ∧ ¬ own.ty.Unfit kinds) fields.toList declared := by
      refine forall₂_of_mem hdeclared fun field hfield entry h => ⟨h.1, ?_⟩
      obtain ⟨own, hget, hmeets⟩ := h.2
      exact ⟨own, hget, hmeets (hfields field hfield)⟩
    have hothers : List.Forall₂ (fun field entry => entry.1 = field.1 ∧ ¬ field.2.ty.Unfit kinds)
        (source.toList.filter fun field => !fields.contains field.1) further := by
      refine hfurther.imp fun field entry h => ⟨h.1, ?_⟩
      rcases h.2 with ⟨rfl, rfl, -⟩ | ⟨ty, hty, hmeets⟩
      -- a record that is open without a rest type does not count as holding only these kinds
      · cases hown
      · exact hmeets (hrest ty hty)
    obtain ⟨_, -, hfits⟩ :=
      exists_entry (fun _ _ inferred => ¬ inferred.Unfit kinds) hnamed hothers hentry
    exact hfits hunfit
  union := fun _ _ _ ⟨ty, hty, h⟩ hexpected => h ((Ty.everywhere_union.mp hexpected).2 ty hty)
  finite := fun values _ _ _ _ hreadings s hs hsame hexpected hunfit => by
    obtain ⟨reading, hreading, hvalue⟩ := hsame
    cases hunfit with
    | choice _ hselects =>
      rw [Ty.readings?_ofValues] at hreadings
      cases hreadings
      exact Ty.Unfit.not_among hselects hreading (Singleton.domain_of_sameValue hvalue)
        (List.all_eq_true.mp hexpected s hs)
    | member | field => cases hreadings
  nil := fun _ _ _ hfits _ hunfit => by
    cases hunfit with
    | choice hne hselects =>
      obtain ⟨s, hs⟩ := List.exists_mem_of_ne_nil _ hne
      have hnil := Ty.fits_of_isAssignable_ofValues hfits s hs
      exact Ty.Unfit.not_among hselects hs (Singleton.domain_of_fits hnil) rfl
    | member | field => cases hfits
  primitive := fun _ _ _ _ _ hty hfits hexpected hunfit => hunfit.not_isAssignable hty hexpected hfits
  anydata := fun _ _ => Or.inl fun hexpected => by cases hexpected
  json := fun _ _ => Or.inl fun hexpected => by cases hexpected

/-- **What is unfit is not taken** by a type that holds only numbers of the kinds, in any state of
the journal. -/
theorem validate_unfit {kinds : List NumericKind} (site : Site) {expected inferred : Ty}
    (hexpected : expected.everywhere (Ty.holdsOnly kinds) = true) (hunfit : inferred.Unfit kinds)
    {j k : Journal} {ty : Ty} : (validate site expected inferred).run j ≠ (.ok ty, k) := by
  intro hrun
  obtain ⟨r, hr⟩ := (Review.fitting kinds).yields_validate site expected inferred
  obtain ⟨_, hrun', -, -, hmeets⟩ := hr j
  cases hrun'.symm.trans hrun
  have hready : (Review.fitting kinds).Ready expected inferred := ⟨trivial, Discipline.everywhere_true expected⟩
  exact (hmeets (Or.inr hready) ty rfl).elim (fun h => h) fun h => h hexpected hunfit

/-! ## What is pruned is taken alike -/

/-- Two types are the same, or one has lost readings and these are of no account. -/
def Ty.Same (kinds : List NumericKind) (plain : Prop) (ty other : Ty) : Prop :=
  other = ty ∨ (plain ∧ Ty.Prunes kinds ty other)

/-- Fields that are related name by name are related one by one. -/
theorem forall₂_toList {R : Field → Field → Prop} {fields others : Fields none}
    (h : ∀ name, Option.Rel R (fields.get? name) (others.get? name)) :
    List.Forall₂ (fun a b => a.1 = b.1 ∧ R a.2 b.2) fields.toList others.toList := by
  have hcontains : ∀ name, fields.contains name = others.contains name := by
    intro name
    have hrel := h name
    rw [Fields.contains, Fields.contains]
    generalize fields.get? name = own at hrel ⊢
    generalize others.get? name = other at hrel ⊢
    cases hrel <;> rfl
  -- both are in ascending order, so they have the same names one by one
  have hnames : fields.names = others.names := by
    refine List.Perm.eq_of_pairwise (fun a b _ _ hab hba => ?_) fields.pairwise_names
      others.pairwise_names ?_
    · exact absurd (String.lt_trans hab hba) (String.lt_irrefl a)
    · refine (List.perm_ext_iff_of_nodup (Fields.nodup_names fields)
        (Fields.nodup_names others)).mpr fun name => ?_
      rw [← Fields.contains_iff_mem_names, ← Fields.contains_iff_mem_names, hcontains]
  refine List.forall₂_iff_get.mpr ⟨?_, fun i hi hi' => ?_⟩
  · simpa [Fields.names] using congrArg List.length hnames
  · have hname : (fields.toList.get ⟨i, hi⟩).1 = (others.toList.get ⟨i, hi'⟩).1 := by
      have hget : fields.names[i]? = others.names[i]? := by rw [hnames]
      simpa [Fields.names, List.getElem?_map, hi, hi'] using hget
    refine ⟨hname, ?_⟩
    have hrel := h (fields.toList.get ⟨i, hi⟩).1
    rw [Fields.get?_of_mem_toList fields (List.get_mem _ _), hname,
      Fields.get?_of_mem_toList others (List.get_mem _ _)] at hrel
    cases hrel with
    | some hR => exact hR

section Taking

variable {kinds : List NumericKind} {plain : Prop} {ty other : Ty} {site : Site}

namespace Ty.Same

theorem imp {simple : Prop} (h : Same kinds plain ty other) (himp : plain → simple) :
    Same kinds simple ty other :=
  h.imp_right fun h => ⟨himp h.1, h.2⟩

theorem isError_eq (h : Same kinds plain ty other) : other.isError = ty.isError := by
  rcases h with rfl | ⟨-, h⟩
  · rfl
  · exact h.isError_eq

theorem effective (h : Same kinds plain ty other) : Same kinds plain ty.effective other.effective := by
  rcases h with rfl | ⟨hplain, h⟩
  · exact Or.inl rfl
  · cases h with
    | self => exact Or.inl rfl
    | choice hvalues hne h =>
      rw [effective_ofValues, effective_ofValues]
      exact Or.inr ⟨hplain, .choice hvalues hne h⟩
    | tuple h => exact Or.inr ⟨hplain, .tuple h⟩
    | record h => exact Or.inr ⟨hplain, .record h⟩

/-- A list that loses readings is a list of members that do. -/
theorem tuple {members : List Ty} {rest : Option Ty}
    (h : Same kinds plain (.tuple members rest) other) :
    ∃ others, other = .tuple others rest ∧ List.Forall₂ (Same kinds plain) members others := by
  have hself : List.Forall₂ (Same kinds plain) members members :=
    List.forall₂_same.mpr fun _ _ => Or.inl rfl
  rcases h with rfl | ⟨hplain, h⟩
  · exact ⟨members, rfl, hself⟩
  · generalize hty : Ty.tuple members rest = ty at h
    cases h with
    | self => exact ⟨members, hty.symm, hself⟩
    | choice => exact absurd hty.symm (ofValues_ne_tuple _ _ _)
    | tuple h =>
      cases hty
      exact ⟨_, rfl, h.imp fun _ _ h => Or.inr ⟨hplain, h⟩⟩
    | record => cases hty

/-- A record that loses readings is a record of fields that do. -/
theorem record {fields : Fields none} {rest : Option Ty} {isSealed : Bool}
    (h : Same kinds plain (.record fields rest isSealed) other) :
    ∃ others, other = .record others rest isSealed
      ∧ ∀ name, Option.Rel (fun a b : Field => Same kinds plain a.ty b.ty) (fields.get? name)
        (others.get? name) := by
  have hself : ∀ name, Option.Rel (fun a b : Field => Same kinds plain a.ty b.ty)
      (fields.get? name) (fields.get? name) := by
    intro name
    cases fields.get? name with
    | none => exact .none
    | some field => exact .some (Or.inl rfl)
  rcases h with rfl | ⟨hplain, h⟩
  · exact ⟨fields, rfl, hself⟩
  · generalize hty : Ty.record fields rest isSealed = ty at h
    cases h with
    | self => exact ⟨fields, hty.symm, hself⟩
    | choice => exact absurd hty.symm (ofValues_ne_record _ _ _ _)
    | tuple => cases hty
    | record h =>
      cases hty
      refine ⟨_, rfl, fun name => ?_⟩
      have hrel := h name
      generalize Fields.get? _ name = own at hrel ⊢
      generalize Fields.get? _ name = other at hrel ⊢
      cases hrel with
      | none => exact .none
      | some h => exact .some (Or.inr ⟨hplain, h⟩)

theorem of_tuple {others : List Ty} {rest : Option Ty}
    (h : Same kinds plain ty (.tuple others rest)) : ∃ members, ty = .tuple members rest := by
  rcases h with h | ⟨-, h⟩
  · exact ⟨others, h.symm⟩
  · generalize hother : Ty.tuple others rest = other at h
    cases h with
    | self => exact ⟨others, hother.symm⟩
    | choice => exact absurd hother.symm (ofValues_ne_tuple _ _ _)
    | tuple =>
      cases hother
      exact ⟨_, rfl⟩
    | record => cases hother

theorem of_record {others : Fields none} {rest : Option Ty} {isSealed : Bool}
    (h : Same kinds plain ty (.record others rest isSealed)) :
    ∃ fields, ty = .record fields rest isSealed := by
  rcases h with h | ⟨-, h⟩
  · exact ⟨others, h.symm⟩
  · generalize hother : Ty.record others rest isSealed = other at h
    cases h with
    | self => exact ⟨others, hother.symm⟩
    | choice => exact absurd hother.symm (ofValues_ne_record _ _ _ _)
    | tuple => cases hother
    | record =>
      cases hother
      exact ⟨_, rfl⟩

end Ty.Same

theorem concur_unlessError {f : Ty → Validation Ty} (h : Ty.Same kinds plain ty other)
    (hf : ∀ ty other, Ty.Same kinds plain ty other → Concur (f ty) (f other)) :
    Concur (unlessError ty f) (unlessError other f) := by
  unfold unlessError
  rw [h.effective.isError_eq]
  split
  · exact .pure _
  · exact hf _ _ h.effective

/-- A type that wants a list takes nothing else. -/
theorem concur_list {f : Ty → Validation Ty} (h : Ty.Same kinds plain ty other)
    (hshape : ∀ ty, (∀ members rest, ty ≠ .tuple members rest) → f ty = throw .mismatch)
    (htuple : ∀ members others rest, List.Forall₂ (Ty.Same kinds plain) members others →
      Concur (f (.tuple members rest)) (f (.tuple others rest))) :
    Concur (unlessError ty f) (unlessError other f) := by
  refine concur_unlessError h fun ty other h => ?_
  by_cases hty : ∃ members rest, ty = .tuple members rest
  · obtain ⟨members, rest, rfl⟩ := hty
    obtain ⟨others, rfl, hall⟩ := h.tuple
    exact htuple members others rest hall
  · rw [hshape ty fun members rest heq => hty ⟨members, rest, heq⟩, hshape other ?_]
    · exact .mismatch
    · rintro others rest rfl
      obtain ⟨members, heq⟩ := h.of_tuple
      exact hty ⟨members, rest, heq⟩

/-- A type that wants a record takes nothing else. -/
theorem concur_record {f : Ty → Validation Ty} (h : Ty.Same kinds plain ty other)
    (hshape : ∀ ty, (∀ fields rest isSealed, ty ≠ .record fields rest isSealed) →
      f ty = throw .mismatch)
    (hrecord : ∀ (fields others : Fields none) rest isSealed,
      (∀ name, Option.Rel (fun a b : Field => Ty.Same kinds plain a.ty b.ty) (fields.get? name)
        (others.get? name)) →
      Concur (f (.record fields rest isSealed)) (f (.record others rest isSealed))) :
    Concur (unlessError ty f) (unlessError other f) := by
  refine concur_unlessError h fun ty other h => ?_
  by_cases hty : ∃ fields rest isSealed, ty = .record fields rest isSealed
  · obtain ⟨fields, rest, isSealed, rfl⟩ := hty
    obtain ⟨others, rfl, hall⟩ := h.record
    exact hrecord fields others rest isSealed hall
  · rw [hshape ty fun fields rest isSealed heq => hty ⟨fields, rest, isSealed, heq⟩, hshape other ?_]
    · exact .mismatch
    · rintro others rest isSealed rfl
      obtain ⟨fields, heq⟩ := h.of_record
      exact hty ⟨fields, rest, isSealed, heq⟩

variable (site) in
/-- That a type takes two types alike whenever they are the same for it. -/
def TakesAlike (kinds : List NumericKind) (expected : Ty) : Prop :=
  ∀ ty other, Ty.Same kinds (expected.everywhere (Ty.holdsOnly kinds) = true) ty other →
    Concur (validate site expected ty) (validate site expected other)

/-! ### Lists -/

theorem takesAlike_array {elem : Ty} (size : ArraySize) (ih : TakesAlike site kinds elem) :
    TakesAlike site kinds (.array elem size) := by
  intro ty other h
  rw [validate, validate]
  refine concur_list h (fun ty hty => ?_) fun members others rest hall => ?_
  · cases ty with
    | tuple members rest => exact absurd rfl (hty members rest)
    | _ => rfl
  · dsimp only
    rw [hall.length_eq]
    split
    · refine (Concur.mapM (hall.imp fun a b hab => ih a b (hab.imp fun hexpected => ?_))).bind
        fun results => (concur_padArray site elem size results).bind fun _ => .pure _
      exact (Ty.everywhere_array.mp hexpected).2
    · exact .mismatch

/-- Members are taken one by one, as long as some are expected, and then by what takes further ones.
-/
theorem concur_validateMembers {expected members others : List Ty} {extra : Ty → Validation Ty}
    (hextra : ∀ a b, Ty.Same kinds plain a b → Concur (extra a) (extra b))
    (ih : ∀ ty ∈ expected, ∀ a b, Ty.Same kinds plain a b →
      Concur (validate site ty a) (validate site ty b))
    (h : List.Forall₂ (Ty.Same kinds plain) members others) :
    Concur (validateMembers site expected extra members)
      (validateMembers site expected extra others) := by
  induction expected generalizing members others with
  | nil =>
    rw [validateMembers, validateMembers]
    exact .mapM (h.imp hextra)
  | cons first expected ihe =>
    obtain ⟨hfirst, hrest⟩ := List.forall_mem_cons.mp ih
    cases h with
    | nil =>
      rw [validateMembers]
      exact (concur_fill site first).bind fun _ => (ihe hrest .nil).bind fun _ => .pure _
    | cons hmember hmembers =>
      rw [validateMembers, validateMembers]
      exact (hfirst _ _ hmember).bind fun _ => (ihe hrest hmembers).bind fun _ => .pure _

theorem concur_validateOption {rest : Option Ty}
    (ih : ∀ ty ∈ rest, ∀ a b, Ty.Same kinds plain a b → Concur (validate site ty a) (validate site ty b))
    (h : Ty.Same kinds plain ty other) :
    Concur (validateOption site rest ty) (validateOption site rest other) := by
  cases rest with
  | none => exact .mismatch
  | some expected => exact ih expected rfl ty other h

theorem takesAlike_tuple {members : List Ty} {rest : Option Ty}
    (ih : ∀ ty ∈ members, TakesAlike site kinds ty) (ihrest : ∀ ty ∈ rest, TakesAlike site kinds ty) :
    TakesAlike site kinds (.tuple members rest) := by
  intro ty other h
  rw [validate, validate]
  refine concur_list h (fun ty hty => ?_) fun inferred others _ hall => ?_
  · cases ty with
    | tuple members rest => exact absurd rfl (hty members rest)
    | _ => rfl
  · refine (concur_validateMembers (fun a b hab => concur_validateOption (fun ty hty a b hab => ?_) hab)
      (fun ty hty a b hab => ?_) hall).bind fun _ => .pure _
    · exact ihrest ty hty a b (hab.imp fun hexpected => (Ty.everywhere_tuple.mp hexpected).2.2 ty hty)
    · exact ih ty hty a b (hab.imp fun hexpected => (Ty.everywhere_tuple.mp hexpected).2.1 ty hty)

/-! ### Records and maps -/

theorem takesAlike_map {constraint : Ty} (ih : TakesAlike site kinds constraint) :
    TakesAlike site kinds (.map constraint) := by
  intro ty other h
  rw [validate, validate]
  refine concur_record h (fun ty hty => ?_) fun fields others _ _ hall => ?_
  · cases ty with
    | record fields rest isSealed => exact absurd rfl (hty fields rest isSealed)
    | _ => rfl
  · refine (Concur.mapM ((forall₂_toList hall).imp ?_)).bind fun _ => .pure _
    rintro ⟨name, a⟩ ⟨_, b⟩ ⟨rfl, hab⟩
    exact (ih _ _ (hab.imp fun hexpected => (Ty.everywhere_map.mp hexpected).2)).bind fun _ => .pure _

theorem concur_validateFields {fields others : Fields none}
    (hall : ∀ name, Option.Rel (fun a b : Field => Ty.Same kinds plain a.ty b.ty) (fields.get? name)
      (others.get? name)) {bound : Option String} :
    (expected : Fields bound) → (∀ entry ∈ expected.toList, ∀ a b, Ty.Same kinds plain a b →
      Concur (validate site entry.2.ty a) (validate site entry.2.ty b)) →
    Concur (validateFields site expected fields) (validateFields site expected others)
  | .nil, _ => .pure _
  | .cons name above ty required tail, ih => by
    rw [Fields.toList, List.forall_mem_cons] at ih
    rw [validateFields, validateFields]
    have hrel := hall name
    generalize fields.get? name = own at hrel ⊢
    generalize others.get? name = other at hrel ⊢
    cases hrel with
    | none => exact .mismatch
    | some hab =>
      exact (ih.1 _ _ hab).bind fun _ => (concur_validateFields hall tail ih.2).bind fun _ => .pure _

theorem takesAlike_record {expected : Fields none} {rest : Option Ty} (isSealed : Bool)
    (ih : ∀ entry ∈ expected.toList, TakesAlike site kinds entry.2.ty)
    (ihrest : ∀ ty ∈ rest, TakesAlike site kinds ty) :
    TakesAlike site kinds (.record expected rest isSealed) := by
  intro ty other h
  rw [validate, validate]
  refine concur_record h (fun ty hty => ?_) fun fields others _ _ hall => ?_
  · cases ty with
    | record fields rest isSealed => exact absurd rfl (hty fields rest isSealed)
    | _ => rfl
  · refine (concur_validateFields hall expected fun entry hentry a b hab => ?_).bind fun declared => ?_
    · exact ih entry hentry a b
        (hab.imp fun hexpected => (Ty.everywhere_record.mp hexpected).2.1 entry hentry)
    refine (Concur.mapM (List.Forall₂.imp (R := fun a b => a.1 = b.1
      ∧ Ty.Same kinds ((Ty.record expected rest isSealed).everywhere (Ty.holdsOnly kinds) = true)
        a.2.ty b.2.ty) ?_ ?_)).bind fun _ => .pure _
    · rintro ⟨name, a⟩ ⟨_, b⟩ ⟨rfl, hab⟩
      dsimp only
      split
      · -- a field is taken as it was inferred, so there must be no difference
        rcases hab with hsame | ⟨hexpected, -⟩
        · rw [hsame]
          exact (concur_narrow _).bind fun _ => .pure _
        · cases (Ty.everywhere_record.mp hexpected).1
      · refine (concur_validateOption (fun ty hty a b hab => ?_) hab).bind fun _ => .pure _
        exact ihrest ty hty a b
          (hab.imp fun hexpected => (Ty.everywhere_record.mp hexpected).2.2 ty hty)
    · refine List.rel_filter ?_ (forall₂_toList hall)
      rintro ⟨name, a⟩ ⟨_, b⟩ ⟨rfl, hab⟩
      exact Iff.rfl

/-! ### Alternatives -/

theorem concur_validateEach {members : List Ty} (found : List Ty)
    (ih : ∀ expected ∈ members, Concur (validate site expected ty) (validate site expected other)) :
    Concur (validateEach site members ty found) (validateEach site members other found) := by
  induction members generalizing found with
  | nil => exact .pure _
  | cons expected members ihm =>
    obtain ⟨hfirst, hrest⟩ := List.forall_mem_cons.mp ih
    rw [validateEach, validateEach]
    exact hfirst.attempt.bind fun _ => ihm _ hrest

/-- What fits is the same in both, and so is what is chosen from it. -/
theorem takesAlike_union {members : List Ty} (ih : ∀ ty ∈ members, TakesAlike site kinds ty) :
    TakesAlike site kinds (.union members) := by
  intro ty other h
  rw [validate, validate]
  refine concur_unlessError h fun ty other h => ?_
  refine (concur_validateEach [] fun expected hexpected => ?_).bind fun fitting => concur_choose site fitting
  exact ih expected hexpected ty other
    (h.imp fun hunion => (Ty.everywhere_union.mp hunion).2 expected hexpected)

/-! ### Values -/

theorem concur_finite (values : List Singleton) (ty : Ty) :
    Concur (Validation.finite values ty) (Validation.finite values ty) := by
  unfold Validation.finite
  split
  · exact .pure _
  · exact .mismatch

theorem concur_primitive (p : Primitive) (ty : Ty) :
    Concur (Validation.primitive p ty) (Validation.primitive p ty) := by
  unfold Validation.primitive
  dsimp only
  split
  · split
    · exact .pure _
    · exact .mismatch
  · split
    · exact .pure _
    · exact .mismatch

variable {readings kept : List Singleton}

/-- A value of one of the kinds matches a reading only if that was kept. -/
theorem matching_of_selects {values : List Singleton} (h : Selects kinds readings kept)
    (hvalues : ∀ s ∈ values, (!s.base.isNumeric || s.base.isAmong kinds) = true) :
    matching values kept = matching values readings := by
  unfold matching
  congr 1
  refine List.filter_congr fun v hv => Bool.eq_iff_iff.mpr ?_
  rw [List.any_eq_true, List.any_eq_true]
  constructor
  · rintro ⟨s, hs, hsame⟩
    exact ⟨s, ((h.mem s).mp hs).1, hsame⟩
  · -- what is the same as a value of the type is a number of its kind
    rintro ⟨s, hs, hsame⟩
    have hdomain := Singleton.domain_of_sameValue hsame
    have hnumeric : v.base.isNumeric = true := Primitive.isNumeric_congr hdomain ▸ h.numeric s hs
    have hamong := Ty.isAmong_of_holdsOnly (hvalues v hv) hnumeric
    exact ⟨s, (h.mem s).mpr ⟨hs, Primitive.isAmong_congr hdomain ▸ hamong⟩, hsame⟩

theorem takesAlike_finite (values : List Singleton) : TakesAlike site kinds (.finite values) := by
  intro ty other h
  rw [validate, validate]
  refine concur_unlessError h fun ty other h => ?_
  suffices heq : Validation.finite values other = Validation.finite values ty by
    rw [heq]
    exact concur_finite values ty
  rcases h with rfl | ⟨hplain, h⟩
  · rfl
  · cases h with
    | self => rfl
    | choice _ _ h =>
      rw [Validation.finite, Validation.finite, Ty.readings?_ofValues, Ty.readings?_ofValues,
        Option.bind_some, Option.bind_some, matching_of_selects h (List.all_eq_true.mp hplain)]
    | tuple | record => rfl

/-- A search finds the same among some values as among all, if there is one to be found at most and
it is among them. -/
theorem find?_eq_of_unique {α : Type} {l l' : List α} {f : α → Bool} (hsub : ∀ a ∈ l', a ∈ l)
    (hkeeps : ∀ a ∈ l, f a = true → a ∈ l')
    (hunique : ∀ a ∈ l, ∀ b ∈ l, f a = true → f b = true → a = b) : l'.find? f = l.find? f := by
  -- what is found in one list is found in the other, and there is only one
  cases hfind : l.find? f with
  | none =>
    rw [List.find?_eq_none] at hfind ⊢
    exact fun a ha => hfind a (hsub a ha)
  | some a =>
    have ha := List.mem_of_find?_eq_some hfind
    have hf := List.find?_some hfind
    cases hfind' : l'.find? f with
    | none => exact absurd hf (List.find?_eq_none.mp hfind' a (hkeeps a ha hf))
    | some b =>
      have hb := hsub b (List.mem_of_find?_eq_some hfind')
      rw [hunique b hb a ha (List.find?_some hfind') hf]

/-- A primitive takes the one reading that lies in its domain, and this was kept. -/
theorem primitive_of_selects {p : Primitive} (hreadings : Ty.IsChoice readings) (hne : kept ≠ [])
    (h : Selects kinds readings kept) (hp : (!p.isNumeric || p.isAmong kinds) = true) :
    Validation.primitive p (Ty.ofValues kept) = Validation.primitive p (Ty.ofValues readings) := by
  have hfits : ∀ s : Singleton, (Ty.singleton s).isAssignable (.primitive p) = true →
      s.base.domain = p.domain := fun s hs => Singleton.domain_of_fits (Ty.fits_of_accepts hs)
  have hfind : (Ty.ofValues kept).unionMembers.find? (fun ty => ty.isAssignable (.primitive p))
      = (Ty.ofValues readings).unionMembers.find? fun ty => ty.isAssignable (.primitive p) := by
    rw [Ty.unionMembers_ofValues, Ty.unionMembers_ofValues]
    -- at most one reading fits, and it is of a kind that is kept
    refine find?_eq_of_unique ?_ ?_ ?_
    · intro ty hty
      obtain ⟨s, hs, rfl⟩ := List.mem_map.mp hty
      exact List.mem_map_of_mem ((h.mem s).mp hs).1
    · intro ty hty hf
      obtain ⟨s, hs, rfl⟩ := List.mem_map.mp hty
      have hnumeric : p.isNumeric = true := Primitive.isNumeric_congr (hfits s hf) ▸ h.numeric s hs
      have hamong := Ty.isAmong_of_holdsOnly hp hnumeric
      exact List.mem_map_of_mem ((h.mem s).mpr ⟨hs, Primitive.isAmong_congr (hfits s hf) ▸ hamong⟩)
    · intro a ha b hb hfa hfb
      obtain ⟨s, hs, rfl⟩ := List.mem_map.mp ha
      obtain ⟨t, ht, rfl⟩ := List.mem_map.mp hb
      rw [hreadings.eq_of_domain hs ht ((hfits s hfa).trans (hfits t hfb).symm)]
  -- no number is nil
  have hnil : p = .nil → ∀ values : List Singleton, values ≠ [] →
      (∀ s ∈ values, s.base.isNumeric = true) →
      (Ty.ofValues values).isAssignable (.primitive .nil) = false := by
    intro _ values hvalues hnumeric
    by_contra hassignable
    obtain ⟨s, hs⟩ := List.exists_mem_of_ne_nil _ hvalues
    have hfit := Ty.fits_of_isAssignable_ofValues (by simpa using hassignable) s hs
    have hnum := hnumeric s hs
    rw [Primitive.isNumeric_congr (Singleton.domain_of_fits hfit)] at hnum
    cases hnum
  unfold Validation.primitive
  rw [hfind]
  cases p with
  | nil =>
    rw [hnil rfl kept hne fun s hs => h.numeric s ((h.mem s).mp hs).1,
      hnil rfl readings hreadings.ne_nil h.numeric]
  | _ => rfl

/-- A list or a record loses readings inside it, and is taken by no primitive before or after. -/
theorem takesAlike_primitive (p : Primitive) : TakesAlike site kinds (.primitive p) := by
  intro ty other h
  rw [validate, validate]
  refine concur_unlessError h fun ty other h => ?_
  suffices heq : Validation.primitive p other = Validation.primitive p ty by
    rw [heq]
    exact concur_primitive p ty
  rcases h with rfl | ⟨hplain, h⟩
  · rfl
  · cases h with
    | self => rfl
    | choice hreadings hne h => exact primitive_of_selects hreadings hne h hplain
    | tuple | record => cases p <;> rfl

/-! ### All types -/

/-- **Validation does not tell two types apart that are the same for the declared type.** -/
theorem takesAlike (expected : Ty) : TakesAlike site kinds expected := by
  induction expected using Ty.induction_parts with
  | array elem size ih => exact takesAlike_array size ih
  | tuple members rest ih ihrest => exact takesAlike_tuple ih ihrest
  | record fields rest isSealed ih ihrest => exact takesAlike_record isSealed ih ihrest
  | map constraint ih => exact takesAlike_map ih
  | union members ih => exact takesAlike_union ih
  | finite values => exact takesAlike_finite values
  | primitive p => exact takesAlike_primitive p
  | reference name referred ih =>
    exact fun ty other h => ih ty other (h.imp fun hexpected => (Ty.everywhere_reference.mp hexpected).2)
  | intersection inner ih =>
    exact fun ty other h => ih ty other (h.imp fun hexpected => (Ty.everywhere_intersection.mp hexpected).2)
  | anydata =>
    intro ty other h
    have hsame : Ty.Same kinds False ty other := h.imp fun hexpected => by cases hexpected
    refine concur_unlessError hsame fun ty other h => ?_
    rw [h.resolve_right fun h => h.1]
    exact concur_narrow ty
  | json =>
    intro ty other h
    have hsame : Ty.Same kinds False ty other := h.imp fun hexpected => by cases hexpected
    refine concur_unlessError hsame fun ty other h => ?_
    rw [h.resolve_right fun h => h.1]
    split
    · exact concur_narrow ty
    · exact .mismatch
  | table => exact fun ty other h => concur_unlessError h fun _ _ _ => .mismatch
  | error => exact fun _ _ _ => .pure _

end Taking

end ConstNarrow
