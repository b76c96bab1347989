/-
**How the fields of a record are merged.**

A record is made from contributions: the fields that are written with a name, those that take their
name from what they refer to, and all fields of spread records. A name may be contributed once.
Computed fields come last; they take the place of whatever has their name, and a later one that of an
earlier one.

What the parts of a record come to is said by `partsOf`, which evaluates them in the order in which
the record does, and places nothing. The record is then compared with it. The two runs differ in what
they report, on which evaluation does not depend.
-/
import ConstNarrow.Proofs.Contagion
import ConstNarrow.Proofs.Giving
import ConstNarrow.Proofs.Inference
import ConstNarrow.Proofs.ValidationReports

set_option autoImplicit false

namespace ConstNarrow

open Checker

/-! ## What a record is made from -/

/-- A name with a type, and the expression that it comes from. -/
structure Contribution where
  location : ExprId
  name : String
  ty : Ty

namespace RecordField

/-- The part of a field that is not computed. -/
def written? : RecordField → Option Slot
  | .named _ value => some ⟨value, true⟩
  | .reference value => some ⟨value, true⟩
  | .spread operand => some ⟨operand, false⟩
  | .computed _ _ => none

/-- What a field contributes if its part has a certain type: nothing can be made of an erroneous
part, of a part that should give its name and has none, and of spreading what is not a record. -/
def contributions? (m : Module) (ty : Ty) : RecordField → Option (List Contribution)
  | .named name value => if ty.isError then none else some [⟨value, name, ty⟩]
  | .reference value =>
    if ty.isError then none else (m.fieldName? value).map fun name => [⟨value, name, ty⟩]
  | .spread operand =>
    match ty.effective with
    | .record fields _ _ => some (fields.toList.map fun entry => ⟨operand, entry.1, entry.2.ty⟩)
    | _ => none
  | .computed _ _ => some []

end RecordField

/-- What a record is made from: what is contributed, and the computed fields, both in order. -/
structure Parts where
  contributions : List Contribution
  computed : List (String × Ty)

namespace Checker

/-- Evaluates the part of a field that is not computed, for what it contributes. -/
def contributed (p : Program) (eval : Evaluator) (frame : Frame) (field : RecordField) :
    CheckM (Option (List Contribution)) :=
  match field.written? with
  | none => pure (some [])
  | some slot => do
    let ty ← eval slot.part (frame.expecting (slot.expects frame.expected))
    pure (field.contributions? p.source ty)

/-- Evaluates the parts of a computed field. Its key has to be one string. -/
def computedEntry (eval : Evaluator) (frame : Frame) :
    RecordField → CheckM (Option (List (String × Ty)))
  | .computed key value => do
    let keyTy ← eval key (frame.expecting none)
    let valueTy ← eval value frame
    pure (if valueTy.isError then none else (keyOf? keyTy).map fun name => [(name, valueTy)])
  | _ => pure (some [])

/-- Goes through fields and collects what is found, if something can be made of each. -/
def collect {α : Type} (find : RecordField → CheckM (Option (List α))) :
    List RecordField → CheckM (Option (List α))
  | [] => pure (some [])
  | field :: fields => do
    let own ← find field
    let rest ← collect find fields
    pure (own.bind fun own => rest.map (own ++ ·))

/-- Evaluates the parts of a record in the order in which the record does. -/
def partsOf (p : Program) (eval : Evaluator) (fields : List RecordField) (frame : Frame) :
    CheckM (Option Parts) := do
  let contributions ← collect (contributed p eval frame) fields
  let computed ← collect (computedEntry eval frame) fields
  pure (contributions.bind fun contributions => computed.map (⟨contributions, ·⟩))

end Checker

/-! ## The rule -/

/-- The type under a name: that of the last computed field, or else the first that is contributed. -/
def Parts.type? (parts : Parts) (name : String) : Option Ty :=
  (parts.computed.reverse.lookup name).or
    ((parts.contributions.find? (·.name == name)).map Contribution.ty)

namespace Contribution

/-- The contributions that are not erroneous. -/
def sound (cs : List Contribution) : List Contribution := cs.filter (!·.ty.isError)

/-- The contributions whose name is among those seen before, or is contributed before. -/
def repeats : (seen : List String) → List Contribution → List Contribution
  | _, [] => []
  | seen, c :: cs =>
    if c.name ∈ seen then c :: repeats seen cs else repeats (c.name :: seen) cs

/-- The report that a name is contributed again. -/
def report (c : Contribution) : Diagnostic := .error c.location (.duplicateKey c.name)

/-- What is reported of contributions: each after the first of its name. -/
def reports (cs : List Contribution) : List Diagnostic := (repeats [] (sound cs)).map report

section Repeats

variable {seen : List String} {cs : List Contribution}

theorem repeats_append_singleton (c : Contribution) :
    repeats seen (cs ++ [c]) = repeats seen cs
      ++ if c.name ∈ seen ∨ c.name ∈ cs.map name then [c] else [] := by
  induction cs generalizing seen with
  | nil => by_cases hseen : c.name ∈ seen <;> simp [repeats, hseen]
  | cons first cs ih =>
    rw [List.cons_append, repeats, repeats]
    split
    · rename_i hfirst
      have hiff : c.name ∈ seen ∨ c.name ∈ (first :: cs).map name
          ↔ c.name ∈ seen ∨ c.name ∈ cs.map name := by
        rw [List.map_cons, List.mem_cons]
        refine ⟨?_, Or.imp_right Or.inr⟩
        rintro (hseen | heq | hmem)
        · exact Or.inl hseen
        · exact Or.inl (heq ▸ hfirst)
        · exact Or.inr hmem
      simp only [ih, hiff, List.cons_append]
    · have hiff : c.name ∈ seen ∨ c.name ∈ (first :: cs).map name
          ↔ c.name ∈ first.name :: seen ∨ c.name ∈ cs.map name := by
        rw [List.map_cons, List.mem_cons, List.mem_cons, or_left_comm, or_assoc]
      simp only [ih, hiff]

/-- Nothing is repeated just if no name is contributed twice. -/
theorem repeats_eq_nil_iff :
    repeats seen cs = [] ↔ (∀ c ∈ cs, c.name ∉ seen) ∧ (cs.map name).Nodup := by
  induction cs generalizing seen with
  | nil => simp [repeats]
  | cons c cs ih =>
    rw [repeats, List.forall_mem_cons, List.map_cons, List.nodup_cons]
    split
    · rename_i hseen
      exact iff_of_false (List.cons_ne_nil _ _) fun h => h.1.1 hseen
    · rename_i hseen
      rw [ih]
      constructor
      · rintro ⟨hnew, hnodup⟩
        refine ⟨⟨hseen, fun d hd hmem => hnew d hd (List.mem_cons_of_mem _ hmem)⟩, fun hmem => ?_,
          hnodup⟩
        obtain ⟨d, hd, heq⟩ := List.mem_map.mp hmem
        exact hnew d hd (heq ▸ List.mem_cons_self)
      · rintro ⟨⟨-, hnew⟩, hother, hnodup⟩
        refine ⟨fun d hd hmem => ?_, hnodup⟩
        rcases List.mem_cons.mp hmem with heq | hmem
        · exact hother (heq ▸ List.mem_map_of_mem hd)
        · exact hnew d hd hmem

/-- A further contribution that is sound is reported if its name is there already. -/
theorem reports_append_singleton (cs : List Contribution) (c : Contribution) :
    reports (cs ++ [c]) = reports cs
      ++ if c.ty.isError = false ∧ c.name ∈ (sound cs).map name then [c.report] else [] := by
  unfold reports sound
  rw [List.filter_append]
  cases herror : c.ty.isError with
  | true => simp [herror]
  | false =>
    rw [List.filter_cons_of_pos (by rw [herror]; rfl), List.filter_nil, repeats_append_singleton,
      List.map_append]
    simp only [List.not_mem_nil, false_or, true_and]
    split <;> rfl

end Repeats

end Contribution

/-! ## Reports of repeated names -/

/-- Whether a report is about a name that is there already. -/
def Diagnostic.isDuplicateKey (d : Diagnostic) : Bool :=
  match d.problem with
  | .duplicateKey _ => true
  | _ => false

/-- Between two journals, these are the reports of repeated names, unless reports are dropped. -/
def Journal.Tallies (j k : Journal) (ds : List Diagnostic) : Prop :=
  ∃ all, j.Adds k all ∧ all.filter Diagnostic.isDuplicateKey = ds

namespace Journal.Tallies

variable {j k l : Journal} {ds es : List Diagnostic}

theorem trans (h : j.Tallies k ds) (h' : k.Tallies l es) : j.Tallies l (ds ++ es) := by
  obtain ⟨all, hadds, rfl⟩ := h
  obtain ⟨all', hadds', rfl⟩ := h'
  exact ⟨all ++ all', hadds.trans hadds', List.filter_append ..⟩

theorem of_sameReports (h : j.SameReports k) : j.Tallies k [] :=
  ⟨[], ⟨h.muteDepth, by simp [h.diagnostics]⟩, rfl⟩

theorem report (c : Contribution) (j : Journal) : j.Tallies (j.report c.report) [c.report] :=
  ⟨[c.report], adds_report j c.report, rfl⟩

end Journal.Tallies

/-- No name is reported as repeated. -/
def Checker.Trail.unrepeated : Trail where
  rel := fun j k => j.Tallies k []
  trans := fun h h' => h.trans h'
  of_sameReports := .of_sameReports

/-- What is reported when the type of a constant is settled is not about names of fields. -/
theorem Checker.Trail.settles_unrepeated (p : Program) : Trail.unrepeated.Settles p := by
  intro value declared inferred ty j k hrun
  cases declared with
  | none =>
    cases hrun
    exact .of_sameReports (.noteAll j _)
  | some expected =>
    obtain ⟨r, choices, gaps, htells, hchoices, -, hgaps⟩ :=
      announces_validate ⟨some value, p.settings.ambiguity⟩ expected inferred
    obtain ⟨k', hrun', hadds⟩ := htells j
    cases hrun.symm.trans hrun'
    obtain rfl : gaps = [] := hgaps
    refine ⟨choices ++ [], hadds, ?_⟩
    rw [List.append_nil, List.filter_eq_nil_iff]
    intro d hd
    obtain ⟨location, candidates, -, rfl⟩ := hchoices d hd
    exact Bool.false_ne_true

/-! ## Types under names -/

namespace Parts

variable {cs : List Contribution} {ks : List (String × Ty)} {name : String}

theorem type?_written : type? ⟨cs, []⟩ name = (cs.find? (·.name == name)).map Contribution.ty := rfl

theorem isSome_type?_iff : (type? ⟨cs, []⟩ name).isSome = true ↔ name ∈ cs.map Contribution.name := by
  simp only [type?_written, Option.isSome_map, List.find?_isSome, beq_iff_eq, List.mem_map]

/-- Of two contributions with one name, the first counts. -/
theorem type?_append_singleton (c : Contribution) : type? ⟨cs ++ [c], []⟩ name
    = (type? ⟨cs, []⟩ name).or (if name = c.name then some c.ty else none) := by
  rw [type?_written, type?_written, List.find?_append, Option.map_or, List.find?_singleton]
  by_cases heq : name = c.name
  · rw [heq, beq_self_eq_true, if_pos rfl, if_pos rfl, Option.map_some]
  · rw [beq_false_of_ne (Ne.symm heq), if_neg Bool.false_ne_true, if_neg heq, Option.map_none]

/-- Of two computed fields with one name, the last counts. -/
theorem type?_computed (key : String) (ty : Ty) : type? ⟨cs, ks ++ [(key, ty)]⟩ name
    = if name = key then some ty else type? ⟨cs, ks⟩ name := by
  rw [type?, List.reverse_append, List.reverse_singleton, List.singleton_append, List.lookup_cons]
  by_cases heq : name = key
  · rw [heq, beq_self_eq_true, if_pos rfl]
    rfl
  · rw [beq_false_of_ne heq, if_neg heq]
    rfl

end Parts

/-! ## Placing -/

open Contribution (sound reports)

/-- **What has been done of a record**, in a run that has evaluated the same as another one. What was
found stands under its name, something has failed just if it had to, and the names that were
contributed again are reported. -/
structure Merged (j : Journal) (parts : Parts) (placed : Placement) (s t : Checker) : Prop where
  fields : ∀ name, placed.fields.get? name
    = (Parts.type? ⟨sound parts.contributions, parts.computed⟩ name).map (⟨·, true⟩)
  failed : placed.failed = true ↔
    (∃ c ∈ parts.contributions, c.ty.isError = true) ∨ reports parts.contributions ≠ []
  tally : j.Tallies s.journal (reports parts.contributions)
  besides : s.Besides t

namespace Merged

variable {j : Journal} {cs : List Contribution} {parts : Parts} {placed : Placement}
variable {s s' t t' : Checker}

theorem contains_iff (h : Merged j ⟨cs, []⟩ placed s t) (name : String) :
    placed.fields.contains name = true ↔ name ∈ (sound cs).map Contribution.name := by
  rw [Fields.contains, h.fields, Option.isSome_map, Parts.isSome_type?_iff]

/-- An evaluation in between changes nothing of what has been done. -/
theorem onward (h : Merged j parts placed s t) (hbesides : s'.Besides t')
    (htally : s.journal.Tallies s'.journal []) : Merged j parts placed s' t' := by
  refine ⟨h.fields, h.failed, ?_, hbesides⟩
  rw [← List.append_nil (reports _)]
  exact h.tally.trans htally

/-- **One contribution**: it is erroneous, or its name is there already, or it is put in its place. -/
theorem putField (h : Merged j ⟨cs, []⟩ placed s t) (c : Contribution) :
    Ends (putField c.location c.name c.ty placed) s fun placed' s' =>
      Merged j ⟨cs ++ [c], []⟩ placed' s' t := by
  have hreports := Contribution.reports_append_singleton cs c
  unfold Checker.putField
  cases herror : c.ty.isError with
  | true =>
    -- an erroneous contribution counts as a failure and takes no place
    have hsound : sound (cs ++ [c]) = sound cs := by simp [sound, herror]
    rw [herror, if_neg (fun h => (by cases h.1)), List.append_nil] at hreports
    refine .pure ⟨?_, ?_, hreports ▸ h.tally, h.besides⟩
    · rw [hsound]
      exact h.fields
    · exact iff_of_true rfl (Or.inl ⟨c, List.mem_append_right _ List.mem_cons_self, herror⟩)
  | false =>
    have hsound : sound (cs ++ [c]) = sound cs ++ [c] := by simp [sound, herror]
    have herrors : (∃ d ∈ cs ++ [c], d.ty.isError = true) ↔ ∃ d ∈ cs, d.ty.isError = true := by
      simp [herror]
    rw [if_neg Bool.false_ne_true]
    cases hcontains : placed.fields.contains c.name with
    | true =>
      -- the name is taken: it is reported, and the first contribution stays
      have hmem := (h.contains_iff c.name).mp hcontains
      rw [if_pos ⟨herror, hmem⟩] at hreports
      refine ⟨{ placed with failed := true },
        { s with journal := s.journal.report c.report }, rfl, fun name => ?_, ?_, ?_,
        ⟨h.besides.status, h.besides.types, h.besides.depth⟩⟩
      · rw [hsound, Parts.type?_append_singleton, h.fields]
        split
        · rename_i heq
          subst heq
          rw [Option.or_of_isSome (Parts.isSome_type?_iff.mpr hmem)]
        · rw [Option.or_none]
      · rw [hreports]
        exact iff_of_true rfl (Or.inr (by simp))
      · rw [hreports]
        exact h.tally.trans (.report c s.journal)
    | false =>
      have hnew : c.name ∉ (sound cs).map Contribution.name := by
        rw [← h.contains_iff, hcontains]
        exact Bool.false_ne_true
      rw [if_neg (fun h => hnew h.2), List.append_nil] at hreports
      refine .pure ⟨fun name => ?_, ?_, hreports ▸ h.tally, h.besides⟩
      · rw [hsound, Parts.type?_append_singleton, Fields.get?_insert, h.fields]
        split
        · rename_i heq
          subst heq
          rw [Option.not_isSome_iff_eq_none.mp (mt Parts.isSome_type?_iff.mp hnew)]
          rfl
        · rw [Option.or_none]
      · rw [herrors, hreports]
        exact h.failed

theorem putFields (location : ExprId) {entries : List (String × Field)}
    (h : Merged j ⟨cs, []⟩ placed s t) :
    Ends (putFields location entries placed) s fun placed' s' =>
      Merged j ⟨cs ++ entries.map fun entry => ⟨location, entry.1, entry.2.ty⟩, []⟩ placed' s' t := by
  induction entries generalizing cs placed s with
  | nil =>
    rw [List.map_nil, List.append_nil]
    exact .pure h
  | cons entry entries ih =>
    refine (h.putField ⟨location, entry.1, entry.2.ty⟩).bind fun placed' s' h' => ?_
    rw [List.map_cons, List.append_cons]
    exact ih h'

end Merged

/-! ## Two runs over the fields -/

/-- That an evaluator does the same as another one, from states that differ in what was said, and
reports no repeated name unless the type is erroneous. -/
def Mirrors (eval eval' : Evaluator) : Prop :=
  ∀ e frame s t ty t', s.Besides t → (eval' e frame).run t = some (ty, t') →
    ∃ s', (eval e frame).run s = some (ty, s') ∧ s'.Besides t'
      ∧ (ty.isError = false → s.journal.Tallies s'.journal [])

section Runs

variable {p : Program} {eval eval' : Evaluator} {frame : Frame} {fields : List RecordField}
variable {j : Journal} {cs : List Contribution} {ks : List (String × Ty)} {parts : Parts}
variable {placed : Placement} {s t t' : Checker}

theorem run_collect_cons {α : Type} {find : RecordField → CheckM (Option (List α))}
    {field : RecordField} {all : List α}
    (h : (collect find (field :: fields)).run t = some (some all, t')) :
    ∃ own rest u, (find field).run t = some (some own, u)
      ∧ (collect find fields).run u = some (some rest, t') ∧ all = own ++ rest := by
  rw [collect, StateT.run_bind] at h
  obtain ⟨⟨own?, u⟩, hown, h⟩ := Option.bind_eq_some_iff.mp h
  rw [StateT.run_bind] at h
  obtain ⟨⟨rest?, v⟩, hrest, h⟩ := Option.bind_eq_some_iff.mp h
  obtain ⟨hall, rfl⟩ := Prod.mk.inj (Option.some.inj h)
  obtain ⟨own, rfl, hmap⟩ := Option.bind_eq_some_iff.mp hall
  obtain ⟨rest, rfl, rfl⟩ := Option.map_eq_some_iff.mp hmap
  exact ⟨own, rest, u, hown, hrest, rfl⟩

/-- **From one field to all fields.** -/
theorem ends_placeEach {α : Type} {find : RecordField → CheckM (Option (List α))}
    {place : RecordField → Placement → CheckM Placement}
    {M : List α → Placement → Checker → Checker → Prop} {found all : List α}
    (hall : (collect find fields).run t = some (some all, t')) (h : M found placed s t)
    (hstep : ∀ field found placed s t own t', M found placed s t →
      (find field).run t = some (some own, t') →
      Ends (place field placed) s fun placed' s' => M (found ++ own) placed' s' t') :
    Ends (placeEach place fields placed) s fun placed' s' => M (found ++ all) placed' s' t' := by
  induction fields generalizing found all placed s t with
  | nil =>
    cases hall
    rw [List.append_nil]
    exact .pure h
  | cons field fields ih =>
    obtain ⟨own, rest, u, hown, hrest, rfl⟩ := run_collect_cons hall
    refine (hstep field found placed s t own u h hown).bind fun placed' s' h' => ?_
    rw [← List.append_assoc]
    exact ih hrest h'

theorem exists_of_run_contributed {field : RecordField} {slot : Slot}
    (hslot : field.written? = some slot) {own? : Option (List Contribution)}
    (h : (contributed p eval' frame field).run t = some (own?, t')) :
    ∃ ty, (eval' slot.part (frame.expecting (slot.expects frame.expected))).run t = some (ty, t')
      ∧ field.contributions? p.source ty = own? := by
  unfold contributed at h
  rw [hslot] at h
  obtain ⟨⟨ty, u⟩, heval, hpure⟩ := Option.bind_eq_some_iff.mp h
  cases hpure
  exact ⟨ty, heval, rfl⟩

/-- **A field that is not computed** is placed as it contributes. -/
theorem Merged.placeWritten (hmirrors : Mirrors eval eval') {field : RecordField}
    (h : Merged j ⟨cs, []⟩ placed s t) {own : List Contribution}
    (hown : (contributed p eval' frame field).run t = some (some own, t')) :
    Ends (placeWritten p eval frame field placed) s fun placed' s' =>
      Merged j ⟨cs ++ own, []⟩ placed' s' t' := by
  cases field with
  | computed key value =>
    cases hown
    rw [List.append_nil]
    exact .pure h
  | named name value =>
    obtain ⟨ty, heval, hty⟩ := exists_of_run_contributed rfl hown
    obtain ⟨s', hrun, hbesides, htally⟩ := hmirrors _ _ s t ty t' h.besides heval
    refine Ends.bind_run hrun ?_
    rw [RecordField.contributions?, Option.ite_none_left_eq_some] at hty
    obtain ⟨herror, hown⟩ := hty
    cases hown
    exact (h.onward hbesides (htally (Bool.eq_false_iff.mpr herror))).putField ⟨value, name, ty⟩
  | reference value =>
    obtain ⟨ty, heval, hty⟩ := exists_of_run_contributed rfl hown
    obtain ⟨s', hrun, hbesides, htally⟩ := hmirrors _ _ s t ty t' h.besides heval
    refine Ends.bind_run hrun ?_
    rw [RecordField.contributions?, Option.ite_none_left_eq_some] at hty
    obtain ⟨herror, hown⟩ := hty
    obtain ⟨name, hname, rfl⟩ := Option.map_eq_some_iff.mp hown
    rw [hname]
    exact (h.onward hbesides (htally (Bool.eq_false_iff.mpr herror))).putField ⟨value, name, ty⟩
  | spread operand =>
    obtain ⟨ty, heval, hty⟩ := exists_of_run_contributed rfl hown
    obtain ⟨s', hrun, hbesides, htally⟩ := hmirrors _ _ s t ty t' h.besides heval
    refine Ends.bind_run hrun ?_
    rw [RecordField.contributions?] at hty
    split at hty
    · rename_i entries rest isSealed heffective
      cases hty
      have herror : ty.isError = false := by
        cases ty <;> first | rfl | cases heffective
      unfold placeSpread
      rw [herror, if_neg Bool.false_ne_true, heffective]
      exact (h.onward hbesides (htally herror)).putFields operand
    · cases hty

/-- **A computed field** takes its place. -/
theorem Merged.placeComputed (hmirrors : Mirrors eval eval') {field : RecordField}
    (h : Merged j ⟨cs, ks⟩ placed s t) {own : List (String × Ty)}
    (hown : (computedEntry eval' frame field).run t = some (some own, t')) :
    Ends (placeComputed eval frame field placed) s fun placed' s' =>
      Merged j ⟨cs, ks ++ own⟩ placed' s' t' := by
  cases field with
  | computed key value =>
    obtain ⟨⟨keyTy, u⟩, hkey, hrest⟩ := Option.bind_eq_some_iff.mp hown
    obtain ⟨⟨valueTy, v⟩, hvalue, hpure⟩ := Option.bind_eq_some_iff.mp hrest
    obtain ⟨hfound, rfl⟩ := Prod.mk.inj (Option.some.inj hpure)
    rw [Option.ite_none_left_eq_some, Bool.not_eq_true] at hfound
    obtain ⟨hvalueTy, hmap⟩ := hfound
    obtain ⟨name, hname, rfl⟩ := Option.map_eq_some_iff.mp hmap
    have hkeyTy : keyTy.isError = false := by
      cases keyTy <;> first | rfl | cases hname
    obtain ⟨s', hrun, hbesides, htally⟩ := hmirrors _ _ s t keyTy u h.besides hkey
    obtain ⟨s'', hrun', hbesides', htally'⟩ := hmirrors _ _ s' u valueTy v hbesides hvalue
    have h' := (h.onward hbesides (htally hkeyTy)).onward hbesides' (htally' hvalueTy)
    refine Ends.bind_run hrun (Ends.bind_run hrun' ?_)
    rw [hkeyTy, hvalueTy, Bool.or_false, if_neg Bool.false_ne_true, hname]
    refine .pure ⟨fun other => ?_, h'.failed, h'.tally, h'.besides⟩
    rw [Parts.type?_computed, Fields.get?_insert, h'.fields]
    split <;> rfl
  | named | reference | spread =>
    cases hown
    rw [List.append_nil]
    exact .pure h

theorem run_partsOf_iff : (partsOf p eval' fields frame).run t = some (some parts, t') ↔
    ∃ u, (collect (contributed p eval' frame) fields).run t = some (some parts.contributions, u)
      ∧ (collect (computedEntry eval' frame) fields).run u = some (some parts.computed, t') := by
  constructor
  · intro h
    obtain ⟨⟨cs?, u⟩, hcontributions, hrest⟩ := Option.bind_eq_some_iff.mp h
    obtain ⟨⟨ks?, v⟩, hcomputed, hpure⟩ := Option.bind_eq_some_iff.mp hrest
    obtain ⟨hfound, rfl⟩ := Prod.mk.inj (Option.some.inj hpure)
    obtain ⟨cs, rfl, hmap⟩ := Option.bind_eq_some_iff.mp hfound
    obtain ⟨ks, rfl, rfl⟩ := Option.map_eq_some_iff.mp hmap
    exact ⟨u, hcontributions, hcomputed⟩
  · rintro ⟨u, hcontributions, hcomputed⟩
    rw [partsOf, run_bind_some hcontributions, run_bind_some hcomputed]
    rfl

/-- **The whole record**: its type is made from what its parts come to. -/
theorem ends_evalRecord (hmirrors : Mirrors eval eval') (h : s.Besides t)
    (hparts : (partsOf p eval' fields frame).run t = some (some parts, t')) :
    Ends (evalRecord p eval fields frame) s fun ty s' => ∃ placed, Merged s.journal parts placed s' t'
      ∧ ty = if placed.failed then .error else .sealedRecord placed.fields := by
  obtain ⟨u, hcontributions, hcomputed⟩ := run_partsOf_iff.mp hparts
  have hstart : Merged s.journal ⟨[], []⟩ ⟨.nil, false⟩ s t :=
    ⟨fun _ => rfl, by simp [reports, sound, Contribution.repeats], .of_sameReports (.refl _), h⟩
  -- the computed fields start from where the others have ended
  refine (ends_placeEach (M := fun cs placed s' t => Merged s.journal ⟨cs, []⟩ placed s' t)
    hcontributions hstart fun _ _ _ _ _ _ _ hm hown => hm.placeWritten hmirrors hown).bind
    fun written s' hwritten => ?_
  refine (ends_placeEach
    (M := fun ks placed s' t => Merged s.journal ⟨parts.contributions, ks⟩ placed s' t)
    hcomputed hwritten fun _ _ _ _ _ _ _ hm hown => hm.placeComputed hmirrors hown).bind
    fun placed s'' hplaced => ?_
  exact .pure ⟨placed, hplaced, rfl⟩

end Runs

/-! ## The type of a record -/

/-- **What is made from parts.** The type is erroneous just if a contribution is, or if a name is
contributed twice. Otherwise it is a sealed record without rest, in which each name that is there has
the type that the parts give it. -/
structure Parts.Makes (parts : Parts) (ty : Ty) : Prop where
  error_iff : ty = .error ↔
    (∃ c ∈ parts.contributions, c.ty = .error) ∨ ¬ (parts.contributions.map Contribution.name).Nodup
  record : ty ≠ .error → ∃ fields, ty = .sealedRecord fields
    ∧ ∀ name, fields.get? name = (parts.type? name).map (⟨·, true⟩)

section Types

variable {p : Program} {id : ExprId} {frame : Frame} {fields : List RecordField} {parts : Parts}
variable {j : Journal} {placed : Placement} {s t : Checker} {n : Nat}

theorem Contribution.sound_eq {cs : List Contribution} (h : ¬ ∃ c ∈ cs, c.ty.isError = true) :
    sound cs = cs := by
  rw [sound, List.filter_eq_self]
  intro c hc
  rw [Bool.eq_false_iff.mpr fun herror => h ⟨c, hc, herror⟩]
  rfl

theorem Merged.makes (h : Merged j parts placed s t) :
    parts.Makes (if placed.failed then .error else .sealedRecord placed.fields) := by
  have hfailed : placed.failed = true ↔ (∃ c ∈ parts.contributions, c.ty = .error)
      ∨ ¬ (parts.contributions.map Contribution.name).Nodup := by
    rw [h.failed]
    simp only [Ty.isError_iff]
    refine or_congr_right' fun hsound => not_congr ?_
    simp only [← Ty.isError_iff] at hsound
    rw [reports, Contribution.sound_eq hsound, List.map_eq_nil_iff, Contribution.repeats_eq_nil_iff]
    exact and_iff_right fun _ _ => List.not_mem_nil
  split
  · rename_i hfail
    exact ⟨iff_of_true rfl (hfailed.mp hfail), fun hne => absurd rfl hne⟩
  · rename_i hfail
    refine ⟨iff_of_false Ty.noConfusion (mt hfailed.mpr hfail), fun _ => ⟨_, rfl, fun name => ?_⟩⟩
    have hsound := fun herror => mt hfailed.mpr hfail (Or.inl herror)
    simp only [← Ty.isError_iff] at hsound
    rw [h.fields, Contribution.sound_eq hsound]

/-- **Evaluation mirrors itself**, with room for one level less. -/
theorem mirrors_evaluateWithin (hacyclic : p.source.Acyclic) (hn : nestingBound p ≤ n + 1) :
    Mirrors (evaluateWithin p n) (evaluate p) := by
  intro e frame s t ty t' hbesides hrun
  obtain ⟨ty', s', t'', hrun', hrun'', hbesides'⟩ :=
    exists_evaluate_besides hacyclic hbesides hn (Nat.le_succ _) e frame
  rw [evaluate, hrun''] at hrun
  cases hrun
  refine ⟨s', hrun', hbesides', fun hty => ?_⟩
  exact (follows_evaluateAvoiding (Trail.settles_unrepeated p) (fun _ => false) n e frame s ty s'
    hrun' hty).2.2

theorem run_evalStep_fresh {refer : Referrer} {eval : Evaluator} {ty : Ty}
    (hfresh : s.exprTypes.get? id = none) (h : (evalFresh p refer eval id frame).run s = some (ty, t)) :
    (evalStep p refer eval id frame).run s = some (ty, t.withType id ty) := by
  have hnone : (typeOf? id).run s = some (none, s) := by
    rw [← hfresh]
    rfl
  rw [evalStep, run_bind_some hnone]
  dsimp only
  rw [run_bind_some h]
  rfl

/-- **A record that has no type yet** is made from what its parts come to, and the names that are
contributed again are reported. -/
theorem exists_evaluate_record (hacyclic : p.source.Acyclic) (hexpr : p.source.expr id = .record fields)
    (hfresh : s.exprTypes.get? id = none)
    (hparts : (partsOf p (evaluate p) fields frame).run s = some (some parts, t)) :
    ∃ ty u, (evaluate p id frame).run s = some (ty, u) ∧ parts.Makes ty
      ∧ s.journal.Tallies u.journal (reports parts.contributions) := by
  obtain ⟨n, hn⟩ : ∃ n, nestingBound p = n + 1 := ⟨_, rfl⟩
  have hmirrors := mirrors_evaluateWithin hacyclic hn.le
  obtain ⟨ty, u, hrun, placed, hmerged, hty⟩ := ends_evalRecord hmirrors (.refl s) hparts
  refine ⟨ty, u.withType id ty, ?_, hty ▸ hmerged.makes, hmerged.tally⟩
  have hrun' : (evalFresh p (referConstant p (evaluateWithin p n)) (evaluateWithin p n) id frame).run s
      = some (ty, u) := by
    rw [evalFresh, hexpr]
    exact hrun
  rw [evaluate, hn]
  exact run_evalStep_fresh hfresh hrun'

end Types

end ConstNarrow
