/-
**What validation reports.**

A validation comes to the same result on every journal, and adds the same diagnostics unless the
journal is muted; only the log may differ. `Tells` says what these are. It turns a computation on
journals into a pair of a result and a list, and every law about validation that speaks of reports
is a law about such pairs.

A failure is either a plain mismatch or has been reported. What fails as reported has added exactly
one diagnostic about a place without a default, and it comes last. A plain mismatch was meant to have
added nothing. But a structure is validated part by part, and a part that fits may have been
ambiguous: this is in the journal when a later part turns out not to fit.
-/
import ConstNarrow.Proofs.Validate
import ConstNarrow.Checker.Resolve

set_option autoImplicit false

namespace ConstNarrow

open Validation

/-! ## Journals -/

namespace Journal

/-- Some diagnostics have been added to a journal, unless it is muted. -/
structure Adds (j k : Journal) (ds : List Diagnostic) : Prop where
  muteDepth : k.muteDepth = j.muteDepth
  diagnostics : k.diagnostics.toList = j.diagnostics.toList ++ if j.isMuted then [] else ds

variable {j k l : Journal} {ds es : List Diagnostic}

theorem Adds.refl (j : Journal) : j.Adds j [] := ⟨rfl, by simp⟩

theorem Adds.trans (h : j.Adds k ds) (h' : k.Adds l es) : j.Adds l (ds ++ es) := by
  have hmuted : k.isMuted = j.isMuted := by rw [isMuted, isMuted, h.muteDepth]
  refine ⟨h'.muteDepth.trans h.muteDepth, ?_⟩
  rw [h'.diagnostics, h.diagnostics, hmuted]
  split <;> simp

theorem adds_note (j : Journal) (e : Event) : j.Adds (j.note e) [] := ⟨rfl, by simp⟩

theorem adds_noteAll (j : Journal) (es : List Event) : j.Adds (j.noteAll es) [] :=
  ⟨j.muteDepth_noteAll es, by simp⟩

theorem adds_report (j : Journal) (d : Diagnostic) : j.Adds (j.report d) [d] := by
  refine ⟨j.muteDepth_report d, ?_⟩
  rw [diagnostics_report]
  split <;> simp

/-- Whatever is added to a muted journal is not there once it no longer is. -/
theorem adds_unmute (h : j.mute.Adds k ds) : j.Adds k.unmute [] := by
  have hmuted : j.mute.isMuted = true := by simp [isMuted, mute]
  refine ⟨?_, ?_⟩
  · show k.muteDepth - 1 = j.muteDepth
    rw [h.muteDepth]
    rfl
  · show k.diagnostics.toList = _
    rw [h.diagnostics, hmuted]
    simp [mute]

end Journal

/-! ## What validations tell -/

namespace Validation

variable {α β : Type} {v : Validation α} {r : Except NarrowError α} {ds es : List Diagnostic}

/-- **What a validation tells**: on every journal it comes to this result, and adds these
diagnostics. -/
def Tells (v : Validation α) (r : Except NarrowError α) (ds : List Diagnostic) : Prop :=
  ∀ j : Journal, ∃ k : Journal, v.run j = (r, k) ∧ j.Adds k ds

/-- A validation tells something. -/
def Told (v : Validation α) : Prop := ∃ r ds, Tells v r ds

namespace Tells

protected theorem pure (a : α) : Tells (pure a : Validation α) (.ok a) [] :=
  fun j => ⟨j, rfl, .refl j⟩

protected theorem throw (e : NarrowError) : Tells (throw e : Validation α) (.error e) [] :=
  fun j => ⟨j, rfl, .refl j⟩

/-- A composite adds what its parts add, in their order. -/
protected theorem bind {f : α → Validation β} {a : α} {r : Except NarrowError β}
    (hv : Tells v (.ok a) ds) (hf : Tells (f a) r es) : Tells (v >>= f) r (ds ++ es) := by
  intro j
  obtain ⟨k, hrun, hadds⟩ := hv j
  obtain ⟨l, hrun', hadds'⟩ := hf k
  exact ⟨l, (run_bind_ok hrun).trans hrun', hadds.trans hadds'⟩

theorem bind_error {f : α → Validation β} {e : NarrowError} (hv : Tells v (.error e) ds) :
    Tells (v >>= f) (.error e) ds := by
  intro j
  obtain ⟨k, hrun, hadds⟩ := hv j
  exact ⟨k, run_bind_error hrun, hadds⟩

theorem note (e : Event) : Tells (Validation.note e) (.ok ()) [] :=
  fun j => ⟨_, rfl, Journal.adds_note j e⟩

theorem report (d : Diagnostic) : Tells (Validation.report d) (.ok ()) [d] :=
  fun j => ⟨_, rfl, Journal.adds_report j d⟩

theorem narrow (ty : Ty) : Tells (Validation.narrow ty) (.ok ty.narrowed) [] :=
  fun j => ⟨_, rfl, Journal.adds_noteAll j _⟩

/-- What is only tried adds nothing. -/
theorem attempt {v : Validation Ty} {r : Except NarrowError Ty} (hv : Tells v r ds) :
    Tells (liftM (Validation.attempt v)) (.ok r.toOption) [] := by
  intro j
  obtain ⟨k, hrun, hadds⟩ := hv j.mute
  refine ⟨k.unmute, ?_, Journal.adds_unmute hadds⟩
  show (Except.ok (v.run j.mute).1.toOption, (v.run j.mute).2.unmute) = _
  rw [hrun]

/-- A validation tells one thing only. -/
theorem unique {r' : Except NarrowError α} (h : Tells v r ds) (h' : Tells v r' es) :
    r' = r ∧ es = ds := by
  obtain ⟨k, hrun, hadds⟩ := h .empty
  obtain ⟨k', hrun', hadds'⟩ := h' .empty
  cases hrun.symm.trans hrun'
  refine ⟨rfl, ?_⟩
  have heq := hadds.diagnostics.symm.trans hadds'.diagnostics
  simpa [Journal.isMuted, Journal.empty] using heq.symm

end Tells

/-- The result of a validation. -/
def outcome (v : Validation α) : Except NarrowError α := (v.run .empty).1

theorem Tells.outcome_eq (h : Tells v r ds) : outcome v = r := by
  obtain ⟨k, hrun, -⟩ := h .empty
  rw [outcome, hrun]

/-! ## Alternatives -/

/-- The different types that the members of a union give for an inferred one, after those found
before. -/
def fitting (site : Site) (inferred : Ty) (members found : List Ty) : List Ty :=
  members.foldl (fun found ty =>
    (outcome (validate site ty inferred)).toOption.elim found (Ty.addNew found)) found

/-- What the members of a union give for an inferred type. -/
def results (site : Site) (inferred : Ty) (members : List Ty) : List Ty :=
  members.filterMap fun ty => (outcome (validate site ty inferred)).toOption

theorem results_cons (site : Site) (inferred ty : Ty) (members : List Ty) :
    results site inferred (ty :: members)
      = (outcome (validate site ty inferred)).toOption.toList ++ results site inferred members := by
  unfold results
  rw [List.filterMap_cons]
  cases outcome (validate site ty inferred) <;> rfl

theorem results_append (site : Site) (inferred : Ty) (members others : List Ty) :
    results site inferred (members ++ others)
      = results site inferred members ++ results site inferred others := List.filterMap_append

theorem fitting_eq_foldl (site : Site) (inferred : Ty) (members found : List Ty) :
    fitting site inferred members found = (results site inferred members).foldl Ty.addNew found := by
  induction members generalizing found with
  | nil => rfl
  | cons ty members ih =>
    rw [results_cons, List.foldl_append, ← ih, fitting, List.foldl_cons]
    cases outcome (validate site ty inferred) <;> rfl

/-- Trying each member finds what fits, and adds nothing. -/
theorem tells_validateEach {site : Site} {inferred : Ty} {members : List Ty}
    (h : ∀ ty ∈ members, Told (validate site ty inferred)) (found : List Ty) :
    Tells (validateEach site members inferred found) (.ok (fitting site inferred members found)) [] := by
  induction members generalizing found with
  | nil =>
    rw [validateEach]
    exact .pure found
  | cons ty members ih =>
    obtain ⟨⟨r, ds, hfirst⟩, hrest⟩ := List.forall_mem_cons.mp h
    rw [validateEach, fitting, List.foldl_cons, hfirst.outcome_eq]
    exact hfirst.attempt.bind (ih hrest _)

/-- The choice among types that fit leaves nothing to be decided: there is at most one, or one is
preferred. -/
def IsDecided (fitting : List Ty) : Prop := fitting.length ≤ 1 ∨ select ⟨none, false⟩ fitting ≠ none

/-- What is reported where the choice is not decided. -/
def choiceReport (site : Site) (candidates : Ty) : List Diagnostic :=
  site.anchor.toList.map fun location => ⟨location, site.ambiguity, .ambiguousType candidates⟩

/-- A choice is reported where there is a place to report at, and logged otherwise. -/
theorem tells_reportChoice (site : Site) (candidates : Ty) :
    Tells (reportChoice site candidates) (.ok ()) (choiceReport site candidates) := by
  unfold reportChoice choiceReport
  cases site.anchor with
  | some location => exact .report _
  | none => exact .note _

/-- A decided choice among some types falls on one of them, and adds nothing. -/
theorem exists_tells_choose_of_decided (site : Site) {first : Ty} {rest : List Ty}
    (h : IsDecided (first :: rest)) :
    ∃ ty ∈ first :: rest, Tells (choose site (first :: rest)) (.ok ty) [] := by
  cases rest with
  | nil => exact ⟨first, List.mem_cons_self, .pure first⟩
  | cons second rest =>
    obtain ⟨ty, hty⟩ := Option.ne_none_iff_exists'.mp (h.resolve_left (by simp))
    refine ⟨ty, (mem_of_select hty).resolve_right fun ⟨_, hnone⟩ => (by cases hnone), ?_⟩
    unfold choose
    dsimp only
    rw [hty]
    exact .pure ty

/-- A choice that is not decided is reported, and falls on the first. -/
theorem tells_choose_of_not_decided {site : Site} {first : Ty} {rest : List Ty}
    (h : ¬ IsDecided (first :: rest)) :
    Tells (choose site (first :: rest)) (.ok first)
      (choiceReport site (Ty.unionOf (first :: rest))) := by
  obtain ⟨hlength, hselect⟩ := not_or.mp h
  cases rest with
  | nil => exact absurd (Nat.le_refl 1) hlength
  | cons second rest =>
    unfold choose
    dsimp only
    rw [not_ne_iff.mp hselect, ← List.append_nil (choiceReport site _)]
    exact (tells_reportChoice site _).bind (.pure first)

end Validation

/-! ## Results and reports go together -/

/-- A report that several types fit. -/
def Site.IsChoice (site : Site) (d : Diagnostic) : Prop :=
  ∃ location candidates, site.anchor = some location
    ∧ d = ⟨location, site.ambiguity, .ambiguousType candidates⟩

/-- A report that a place has no default. -/
def Site.IsGap (site : Site) (d : Diagnostic) : Prop :=
  ∃ location part, site.anchor = some location ∧ d = .error location (.noDefault part)

/-- The gaps that go with a result: one if it is a failure that was reported, and none else. -/
def Site.Gaps {α : Type} (site : Site) : Except NarrowError α → List Diagnostic → Prop
  | .error .reported, gaps => ∃ d, gaps = [d] ∧ site.IsGap d
  | _, gaps => gaps = []

namespace Validation

variable {α β : Type} {site : Site} {plain : Prop}

/-- **A validation reports as its result says**: choices first, of which there are none if it is
plain, and then the gap that it fails for. -/
def Announces (site : Site) (plain : Prop) (v : Validation α) : Prop :=
  ∃ r choices gaps, Tells v r (choices ++ gaps) ∧ (∀ d ∈ choices, site.IsChoice d)
    ∧ (plain → choices = []) ∧ site.Gaps r gaps

namespace Announces

theorem told {v : Validation α} (h : Announces site plain v) : Told v := by
  obtain ⟨r, choices, gaps, htells, -⟩ := h
  exact ⟨r, _, htells⟩

theorem mono {v : Validation α} {simple : Prop} (h : Announces site plain v)
    (himp : simple → plain) : Announces site simple v := by
  obtain ⟨r, choices, gaps, htells, hchoices, hplain, hgaps⟩ := h
  exact ⟨r, choices, gaps, htells, hchoices, fun hsimple => hplain (himp hsimple), hgaps⟩

/-- Nothing is reported. -/
theorem quiet {v : Validation α} {r : Except NarrowError α} (h : Tells v r [])
    (hr : r ≠ .error .reported) : Announces site plain v := by
  refine ⟨r, [], [], h, fun _ hd => (by cases hd), fun _ => rfl, ?_⟩
  rcases r with (- | -) | -
  · rfl
  · exact absurd rfl hr
  · rfl

protected theorem pure (a : α) : Announces site plain (pure a) := .quiet (.pure a) (by simp)

theorem mismatch : Announces site plain (throw .mismatch : Validation α) :=
  .quiet (.throw _) (by simp)

/-- **Reports go together with results step by step**: only the last step may fail, and so the gap
comes last. -/
protected theorem bind {v : Validation α} {f : α → Validation β} (hv : Announces site plain v)
    (hf : ∀ a, Announces site plain (f a)) : Announces site plain (v >>= f) := by
  obtain ⟨r, choices, gaps, htells, hchoices, hplain, hgaps⟩ := hv
  cases r with
  | error e =>
    refine ⟨.error e, choices, gaps, htells.bind_error, hchoices, hplain, ?_⟩
    cases e <;> exact hgaps
  | ok a =>
    obtain ⟨r', choices', gaps', htells', hchoices', hplain', hgaps'⟩ := hf a
    cases hgaps
    refine ⟨r', choices ++ choices', gaps', ?_, ?_, fun h => ?_, hgaps'⟩
    · have hboth := htells.bind htells'
      rwa [List.append_nil, ← List.append_assoc] at hboth
    · exact List.forall_mem_append.mpr ⟨hchoices, hchoices'⟩
    · rw [hplain h, hplain' h]
      rfl

theorem mapM {f : α → Validation β} {l : List α} (h : ∀ x ∈ l, Announces site plain (f x)) :
    Announces site plain (l.mapM f) := by
  induction l with
  | nil =>
    rw [List.mapM_nil]
    exact .pure []
  | cons x l ih =>
    obtain ⟨hfirst, hrest⟩ := List.forall_mem_cons.mp h
    rw [List.mapM_cons]
    exact hfirst.bind fun _ => (ih hrest).bind fun _ => .pure _

end Announces

/-! ### The parts -/

theorem announces_narrow (ty : Ty) : Announces site plain (narrow ty) := .quiet (.narrow ty) (by simp)

theorem announces_fill (site : Site) (ty : Ty) : Announces site plain (fill site ty) := by
  unfold fill
  cases ty.default with
  | ok value => exact .pure value
  | error part =>
    cases hanchor : site.anchor with
    | none => exact .quiet ((Tells.note _).bind (.throw _)) (by simp)
    | some location =>
      exact ⟨.error .reported, [], [.error location (.noDefault part)],
        (Tells.report _).bind (.throw _), fun _ hd => (by cases hd), fun _ => rfl, _, rfl, location,
        part, hanchor, rfl⟩

theorem announces_padArray (site : Site) (elem : Ty) (size : ArraySize) (members : List Ty) :
    Announces site plain (padArray site elem size members) := by
  unfold padArray
  cases size with
  | closed n =>
    dsimp only
    split
    · exact (announces_fill site elem).bind fun _ => .pure _
    · exact .pure _
  | unbounded | inferred => exact .pure _

/-- A choice may be reported where the expected type has a union. -/
theorem announces_choose (site : Site) (fitting : List Ty) (h : ¬ plain) :
    Announces site plain (choose site fitting) := by
  cases fitting with
  | nil => exact .mismatch
  | cons first rest =>
    by_cases hdecided : IsDecided (first :: rest)
    · obtain ⟨ty, -, htells⟩ := exists_tells_choose_of_decided site hdecided
      exact .quiet htells (by simp)
    · refine ⟨.ok first, choiceReport site (Ty.unionOf (first :: rest)), [], ?_, fun d hd => ?_,
        fun hplain => absurd hplain h, rfl⟩
      · rw [List.append_nil]
        exact tells_choose_of_not_decided hdecided
      · obtain ⟨location, hlocation, rfl⟩ := List.mem_map.mp hd
        exact ⟨location, _, Option.mem_toList.mp hlocation, rfl⟩

theorem announces_unlessError {f : Ty → Validation Ty} (h : ∀ ty, Announces site plain (f ty))
    (inferred : Ty) : Announces site plain (unlessError inferred f) := by
  unfold unlessError
  split
  · exact .pure _
  · exact h _

theorem announces_finite (values : List Singleton) (inferred : Ty) :
    Announces site plain (Validation.finite values inferred) := by
  unfold Validation.finite
  split
  · exact .pure _
  · exact .mismatch

theorem announces_primitive (p : Primitive) (inferred : Ty) :
    Announces site plain (Validation.primitive p inferred) := by
  unfold Validation.primitive
  dsimp only
  split
  · split
    · exact .pure _
    · exact .mismatch
  · split
    · exact .pure _
    · exact .mismatch

/-! ### The walk -/

theorem announces_validateOption {rest : Option Ty}
    (h : ∀ ty ∈ rest, ∀ inferred, Announces site plain (validate site ty inferred)) (inferred : Ty) :
    Announces site plain (validateOption site rest inferred) := by
  cases rest with
  | none => exact .mismatch
  | some ty => exact h ty rfl inferred

theorem announces_validateMembers {members : List Ty} {extra : Ty → Validation Ty}
    (h : ∀ ty ∈ members, ∀ inferred, Announces site plain (validate site ty inferred))
    (hextra : ∀ inferred, Announces site plain (extra inferred)) (inferred : List Ty) :
    Announces site plain (validateMembers site members extra inferred) := by
  induction members generalizing inferred with
  | nil =>
    rw [validateMembers]
    exact .mapM fun ty _ => hextra ty
  | cons ty members ih =>
    obtain ⟨hfirst, hrest⟩ := List.forall_mem_cons.mp h
    cases inferred with
    | nil =>
      rw [validateMembers]
      exact (announces_fill site ty).bind fun _ => (ih hrest []).bind fun _ => .pure _
    | cons first inferred =>
      rw [validateMembers]
      exact (hfirst first).bind fun _ => (ih hrest inferred).bind fun _ => .pure _

/-- A field that is missing is a mismatch and no gap. -/
theorem announces_validateFields {source : Fields none} {bound : Option String} :
    (fields : Fields bound) →
    (∀ entry ∈ fields.toList, ∀ inferred, Announces site plain (validate site entry.2.ty inferred)) →
    Announces site plain (validateFields site fields source)
  | .nil, _ => by
    rw [validateFields]
    exact .pure []
  | .cons name above ty required tail, h => by
    rw [Fields.toList, List.forall_mem_cons] at h
    rw [validateFields]
    cases source.get? name with
    | none => exact .mismatch
    | some field =>
      exact (h.1 field.ty).bind fun _ => (announces_validateFields tail h.2).bind fun _ => .pure _

end Validation

/-- **Validation reports as its result says.** Without a union in the expected type no choice is
reported. -/
theorem announces_validate (site : Site) (expected inferred : Ty) :
    Announces site (expected.everywhere Ty.isNoUnion = true) (validate site expected inferred) := by
  induction expected using Ty.induction_parts generalizing inferred with
  | error => exact .pure Ty.error
  | reference name referred ih => exact (ih inferred).mono fun h => (Ty.everywhere_reference.mp h).2
  | intersection inner ih => exact (ih inferred).mono fun h => (Ty.everywhere_intersection.mp h).2
  | array elem size ih =>
    rw [validate]
    refine announces_unlessError (fun inferred => ?_) inferred
    cases inferred with
    | tuple members rest =>
      dsimp only
      split
      · refine (Announces.mapM fun member _ => (ih member).mono fun h => ?_).bind fun results =>
          (announces_padArray site elem size results).bind fun _ => .pure _
        exact (Ty.everywhere_array.mp h).2
      · exact .mismatch
    | _ => exact .mismatch
  | tuple expected rest ih ihrest =>
    rw [validate]
    refine announces_unlessError (fun inferred => ?_) inferred
    cases inferred with
    | tuple members _ =>
      refine (announces_validateMembers (fun ty hty given => (ih ty hty given).mono fun h => ?_)
        (announces_validateOption fun ty hty given => (ihrest ty hty given).mono fun h => ?_)
        members).bind fun _ => .pure _
      · exact (Ty.everywhere_tuple.mp h).2.1 ty hty
      · exact (Ty.everywhere_tuple.mp h).2.2 ty hty
    | _ => exact .mismatch
  | map constraint ih =>
    rw [validate]
    refine announces_unlessError (fun inferred => ?_) inferred
    cases inferred with
    | record fields _ _ =>
      refine (Announces.mapM fun field _ => ((ih field.2.ty).mono fun h => ?_).bind fun _ =>
        .pure _).bind fun _ => .pure _
      exact (Ty.everywhere_map.mp h).2
    | _ => exact .mismatch
  | record expected rest isSealed ih ihrest =>
    rw [validate]
    refine announces_unlessError (fun inferred => ?_) inferred
    cases inferred with
    | record fields _ _ =>
      refine (announces_validateFields expected fun entry hentry given =>
        (ih entry hentry given).mono fun h => ?_).bind fun _ => ?_
      · exact (Ty.everywhere_record.mp h).2.1 entry hentry
      refine (Announces.mapM fun field _ => ?_).bind fun _ => .pure _
      dsimp only
      split
      · exact (announces_narrow _).bind fun _ => .pure _
      · refine (announces_validateOption (fun ty hty given =>
          (ihrest ty hty given).mono fun h => ?_) field.2.ty).bind fun _ => .pure _
        exact (Ty.everywhere_record.mp h).2.2 ty hty
    | _ => exact .mismatch
  | union members ih =>
    rw [validate]
    refine announces_unlessError (fun inferred => ?_) inferred
    -- the members are tried in silence, so that only the choice among them is reported
    refine (Announces.quiet (tells_validateEach (fun ty hty => (ih ty hty inferred).told) [])
      (by simp)).bind fun fitting => announces_choose site fitting ?_
    exact fun h => Bool.false_ne_true (Ty.everywhere_union.mp h).1
  | finite values =>
    rw [validate]
    exact announces_unlessError (announces_finite values) inferred
  | primitive p =>
    rw [validate]
    exact announces_unlessError (announces_primitive p) inferred
  | anydata =>
    rw [validate]
    exact announces_unlessError announces_narrow inferred
  | json =>
    rw [validate]
    refine announces_unlessError (fun inferred => ?_) inferred
    split
    · exact announces_narrow inferred
    · exact .mismatch
  | table =>
    rw [validate]
    exact announces_unlessError (fun _ => .mismatch) inferred

/-- **Validation does not depend on the journal.** -/
theorem told_validate (site : Site) (expected inferred : Ty) :
    Told (validate site expected inferred) :=
  (announces_validate site expected inferred).told

/-! ## Failures -/

/-- A union that does not take a type adds nothing. -/
theorem tells_of_mismatch {site : Site} {expected inferred : Ty} {members : List Ty}
    (hunion : expected.effective = .union members) {ds : List Diagnostic}
    (h : Tells (validate site expected inferred) (.error .mismatch) ds) : ds = [] := by
  induction expected using Ty.induction_parts with
  | reference name referred ih => exact ih hunion h
  | intersection inner ih => exact ih hunion h
  | union members _ =>
    rw [validate, unlessError] at h
    split at h
    · cases (h.unique (.pure _)).1
    · have hfitting := tells_validateEach
        (fun ty (_ : ty ∈ members) => told_validate site ty inferred.effective) []
      generalize Validation.fitting site inferred.effective members [] = found at hfitting
      cases found with
      | nil => exact ((hfitting.bind (.throw _)).unique h).2
      | cons first rest =>
        -- where something fits there is a result
        by_cases hdecided : IsDecided (first :: rest)
        · obtain ⟨ty, -, htells⟩ := exists_tells_choose_of_decided site hdecided
          cases ((hfitting.bind htells).unique h).1
        · cases ((hfitting.bind (tells_choose_of_not_decided hdecided)).unique h).1
  | _ => cases hunion

/-- What a validation tells is what the checker gets, in every state, and only the journal changes. -/
theorem Validation.Tells.run_validType {p : Program} {s : Checker} {expected inferred : Ty}
    {r : Except NarrowError Ty} {ds : List Diagnostic}
    (h : Tells (validate ⟨s.anchor, p.settings.ambiguity⟩ expected inferred) r ds) :
    ∃ journal, (Checker.validType p expected inferred).run s = some (r, { s with journal })
      ∧ s.journal.Adds journal ds := by
  obtain ⟨journal, hrun, hadds⟩ := h s.journal
  refine ⟨journal, ?_, hadds⟩
  show some (((validate ⟨s.anchor, p.settings.ambiguity⟩ expected inferred).run s.journal).1,
    { s with journal :=
      ((validate ⟨s.anchor, p.settings.ambiguity⟩ expected inferred).run s.journal).2 }) = _
  rw [hrun]

/-- **What a validation that fails has reported**, if there is a place to report at and the journal
is not muted. A failure that counts as reported has added one diagnostic about a missing default, as
its last. A mismatch has added nothing but ambiguities of the parts before the one that does not fit:
nothing at all if the expected type is a union, or if it has no union anywhere. -/
theorem failed_validation_reports (p : Program) (s : Checker) (expected inferred : Ty)
    (location : ExprId) (hanchor : s.anchor = some location) (hmute : s.journal.muteDepth = 0) :
    ∃ outcome t new, (Checker.validType p expected inferred).run s = some (outcome, t)
      ∧ t.journal.diagnostics.toList = s.journal.diagnostics.toList ++ new
      ∧ (outcome = .error .mismatch →
        (∀ d ∈ new, d.location = location ∧ d.problem.code = .ambiguousType)
        ∧ ((∃ members, expected.effective = .union members)
            ∨ expected.everywhere Ty.isNoUnion = true → new = []))
      ∧ (outcome = .error .reported → ∃ choices gap, new = choices ++ [gap]
        ∧ gap.location = location ∧ gap.problem.code = .invalidListConstructorElementType
        ∧ ∀ d ∈ choices, d.location = location ∧ d.problem.code = .ambiguousType) := by
  obtain ⟨r, choices, gaps, htells, hchoices, hplain, hgaps⟩ :=
    announces_validate ⟨s.anchor, p.settings.ambiguity⟩ expected inferred
  obtain ⟨journal, hrun, hadds⟩ := htells.run_validType
  have hunmuted : s.journal.isMuted = false := by simp [Journal.isMuted, hmute]
  have hall : ∀ d ∈ choices, d.location = location ∧ d.problem.code = .ambiguousType := by
    intro d hd
    obtain ⟨place, candidates, hplace, rfl⟩ := hchoices d hd
    cases hanchor.symm.trans hplace
    exact ⟨rfl, rfl⟩
  refine ⟨r, _, choices ++ gaps, hrun, ?_, ?_, ?_⟩
  · rw [hadds.diagnostics, hunmuted]
    rfl
  · rintro rfl
    cases hgaps
    rw [List.append_nil] at htells ⊢
    refine ⟨hall, ?_⟩
    rintro (⟨members, hunion⟩ | hnone)
    · exact tells_of_mismatch hunion htells
    · exact hplain hnone
  · rintro rfl
    obtain ⟨gap, rfl, place, part, hplace, rfl⟩ := hgaps
    cases hanchor.symm.trans hplace
    exact ⟨choices, _, rfl, rfl, rfl, hall⟩

section Examples

/-- A list of integers, of any length or of two. -/
def looseRow : Ty :=
  .union [.array (.primitive .int) .unbounded, .array (.primitive .int) (.closed 2)]

/-- A checker at work on its first expression. -/
def atWork : Checker := { Checker.start with anchor := some 0 }

/-- Two rows: the first fits in two ways, and the second lacks a member that has no default. -/
theorem rows_report_gap :
    ∃ t choice gap, (Checker.validType ⟨.empty, [], .default⟩
        (.tuple [looseRow, .array (.union [.primitive .int, .primitive .string]) (.closed 1)] none)
        (.tuple [.tuple [.singleton (.ofScalar (.int 1))] none, .tuple [] none] none)).run atWork
        = some (.error .reported, t)
      ∧ t.journal.diagnostics.toList = [choice, gap] ∧ choice.problem.code = .ambiguousType
      ∧ gap.location = 0 ∧ gap.problem.code = .invalidListConstructorElementType := by
  obtain ⟨outcome, t, new, hrun, hnew, -, hreported⟩ := failed_validation_reports
    ⟨.empty, [], .default⟩ atWork
    (.tuple [looseRow, .array (.union [.primitive .int, .primitive .string]) (.closed 1)] none)
    (.tuple [.tuple [.singleton (.ofScalar (.int 1))] none, .tuple [] none] none) 0 rfl rfl
  cases hrun
  obtain ⟨choices, gap, rfl, hlocation, hcode, hchoices⟩ := hreported rfl
  -- the run has added two diagnostics, so there is one choice
  have hlength : (choices ++ [gap]).length = 2 := (congrArg List.length hnew).symm
  rw [List.length_append] at hlength
  obtain ⟨choice, rfl⟩ := List.length_eq_one_iff.mp (Nat.succ.inj hlength)
  exact ⟨_, choice, gap, rfl, hnew, (hchoices choice List.mem_cons_self).2, hlocation, hcode⟩

/-- **A mismatch that has reported something.** The first row fits in two ways, which is reported; the
second member is no integer. -/
theorem ambiguity_before_mismatch :
    atWork.anchor = some 0 ∧ atWork.journal.muteDepth = 0 ∧ atWork.journal.diagnostics = #[]
      ∧ ∃ t, (Checker.validType ⟨.empty, [], .default⟩ (.tuple [looseRow, .primitive .int] none)
          (.tuple [.tuple [.singleton (.ofScalar (.int 1))] none,
            .singleton (.ofScalar (.string "a"))] none)).run atWork = some (.error .mismatch, t)
        ∧ t.journal.diagnostics.toList.map (·.problem.code) = [.ambiguousType] :=
  ⟨rfl, rfl, rfl, _, rfl, rfl⟩

end Examples

end ConstNarrow
