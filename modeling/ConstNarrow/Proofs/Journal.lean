/-
**What may be added to a journal**, and what follows for the validations that write to it.

A journal only grows. Besides, what a check writes while it is busy with an expression says
nothing about how constants depend on each other; such reports come from elsewhere, and are set
apart by `isLocal`. Only committing types to expressions can write of a violation; everything else
is calm.

A validation is described by `Yields`: its result does not depend on the journal, the journal
grows, and a result has a property. The property may have an excuse, something that has been
written to the journal on the way. An excuse lasts, so it has to be looked for only once, at the
end.
-/
import Mathlib.Data.List.Forall2
import ConstNarrow.Validation

set_option autoImplicit false

namespace ConstNarrow

theorem Ty.isError_iff {ty : Ty} : ty.isError = true ↔ ty = .error := by
  cases ty <;> simp [isError]

theorem Ty.isError_eq_false {ty : Ty} (h : ty ≠ .error) : ty.isError = false :=
  Bool.eq_false_iff.mpr fun herror => h (isError_iff.mp herror)

/-- Whether a problem lies in one expression, and not in the way from one constant to another. -/
def Problem.isLocal : Problem → Bool
  | .selfReference _ => false
  | .resolutionTooDeep _ _ => false
  | .constantCycle _ => false
  | _ => true

namespace Journal

/-- A journal has been added to. -/
structure Extends (j k : Journal) : Prop where
  diagnostics : ∃ new, k.diagnostics.toList = j.diagnostics.toList ++ new
  log : ∃ new, k.log.toList = j.log.toList ++ new

/-- A journal has been added to, with no report about dependencies among what was added, and is
muted as often as before. -/
structure Grows (j k : Journal) : Prop where
  diagnostics : ∃ new, k.diagnostics.toList = j.diagnostics.toList ++ new
    ∧ ∀ d ∈ new, d.problem.isLocal = true
  log : ∃ new, k.log.toList = j.log.toList ++ new
  muteDepth : k.muteDepth = j.muteDepth

variable {j k l : Journal}

theorem Extends.refl (j : Journal) : j.Extends j := ⟨⟨[], by simp⟩, ⟨[], by simp⟩⟩

theorem Extends.trans (h₁ : j.Extends k) (h₂ : k.Extends l) : j.Extends l := by
  obtain ⟨⟨ds₁, hd₁⟩, ⟨es₁, he₁⟩⟩ := h₁
  obtain ⟨⟨ds₂, hd₂⟩, ⟨es₂, he₂⟩⟩ := h₂
  refine ⟨⟨ds₁ ++ ds₂, ?_⟩, ⟨es₁ ++ es₂, ?_⟩⟩
  · rw [hd₂, hd₁, List.append_assoc]
  · rw [he₂, he₁, List.append_assoc]

theorem Grows.toExtends (h : j.Grows k) : j.Extends k :=
  ⟨h.diagnostics.imp fun _ hnew => hnew.1, h.log⟩

theorem Grows.refl (j : Journal) : j.Grows j := ⟨⟨[], by simp⟩, ⟨[], by simp⟩, rfl⟩

theorem Grows.trans (h₁ : j.Grows k) (h₂ : k.Grows l) : j.Grows l := by
  obtain ⟨⟨ds₁, hd₁, hl₁⟩, ⟨es₁, he₁⟩, hm₁⟩ := h₁
  obtain ⟨⟨ds₂, hd₂, hl₂⟩, ⟨es₂, he₂⟩, hm₂⟩ := h₂
  refine ⟨⟨ds₁ ++ ds₂, ?_, ?_⟩, ⟨es₁ ++ es₂, ?_⟩, hm₂.trans hm₁⟩
  · rw [hd₂, hd₁, List.append_assoc]
  · intro d hd
    rcases List.mem_append.mp hd with hd | hd
    · exact hl₁ d hd
    · exact hl₂ d hd
  · rw [he₂, he₁, List.append_assoc]

theorem grows_note (j : Journal) (e : Event) : j.Grows (j.note e) :=
  ⟨⟨[], by simp⟩, ⟨[e], by simp [note]⟩, rfl⟩

theorem grows_noteAll (j : Journal) (es : List Event) : j.Grows (j.noteAll es) := by
  induction es generalizing j with
  | nil => exact .refl j
  | cons e es ih => exact (grows_note j e).trans (ih (j.note e))

theorem mem_log_noteAll (j : Journal) (es : List Event) {e : Event} (h : e ∈ es) :
    e ∈ (j.noteAll es).log.toList := by
  induction es generalizing j with
  | nil => cases h
  | cons first es ih =>
    rcases List.mem_cons.mp h with rfl | h
    · obtain ⟨new, hnew⟩ := (grows_noteAll (j.note e) es).log
      show e ∈ ((j.note e).noteAll es).log.toList
      rw [hnew]
      simp [note]
    · exact ih (j.note first) h

/-- A report is added to the others, or to the log while the journal is muted. -/
theorem grows_report (j : Journal) {d : Diagnostic} (h : d.problem.isLocal = true) :
    j.Grows (j.report d) := by
  unfold report
  split
  · exact grows_note j _
  · exact ⟨⟨[d], by simp [h]⟩, ⟨[], by simp⟩, rfl⟩

/-- Whatever is reported, a journal is added to. -/
theorem extends_report (j : Journal) (d : Diagnostic) : j.Extends (j.report d) := by
  unfold report
  split
  · exact (grows_note j _).toExtends
  · exact ⟨⟨[d], by simp⟩, ⟨[], by simp⟩⟩

theorem extends_mute (j : Journal) : j.Extends j.mute :=
  ⟨⟨[], by simp [mute]⟩, ⟨[], by simp [mute]⟩⟩

/-- What grew while the journal was muted has grown once it no longer is. -/
theorem grows_unmute (h : j.mute.Grows k) : j.Grows k.unmute := by
  refine ⟨h.diagnostics, h.log, ?_⟩
  show k.muteDepth - 1 = j.muteDepth
  rw [h.muteDepth]
  rfl

/-- A journal has grown, and no violation has been added to its log. -/
structure Calm (j k : Journal) : Prop extends Grows j k where
  violations : ∀ v, .violated v ∈ k.log.toList → .violated v ∈ j.log.toList

theorem Calm.refl (j : Journal) : j.Calm j := ⟨.refl j, fun _ h => h⟩

theorem Calm.trans (h₁ : j.Calm k) (h₂ : k.Calm l) : j.Calm l :=
  ⟨h₁.toGrows.trans h₂.toGrows, fun v hv => h₁.violations v (h₂.violations v hv)⟩

theorem Calm.toExtends (h : j.Calm k) : j.Extends k := h.toGrows.toExtends

theorem calm_note (j : Journal) {e : Event} (h : ∀ v, e ≠ .violated v) : j.Calm (j.note e) := by
  refine ⟨grows_note j e, fun v hv => ?_⟩
  rw [note, Array.toList_push, List.mem_append, List.mem_singleton] at hv
  exact hv.resolve_right fun heq => h v heq.symm

theorem calm_noteAll (j : Journal) {es : List Event} (h : ∀ e ∈ es, ∀ v, e ≠ .violated v) :
    j.Calm (j.noteAll es) := by
  induction es generalizing j with
  | nil => exact .refl j
  | cons e es ih =>
    obtain ⟨hfirst, hrest⟩ := List.forall_mem_cons.mp h
    exact (calm_note j hfirst).trans (ih (j.note e) hrest)

/-- It is no violation that a type has no narrowing. -/
theorem calm_noNarrowing (j : Journal) (tys : List Ty) : j.Calm (j.noteAll (tys.map .noNarrowing)) := by
  refine calm_noteAll j fun e he v heq => ?_
  obtain ⟨ty, -, rfl⟩ := List.mem_map.mp he
  cases heq

/-- A report is no violation. -/
theorem violated_of_report (j : Journal) (d : Diagnostic) {v : Violation}
    (h : .violated v ∈ (j.report d).log.toList) : .violated v ∈ j.log.toList := by
  unfold report at h
  split at h
  · exact (calm_note j fun _ heq => (by cases heq)).violations v h
  · exact h

theorem calm_report (j : Journal) {d : Diagnostic} (h : d.problem.isLocal = true) :
    j.Calm (j.report d) :=
  ⟨grows_report j h, fun _ hv => violated_of_report j d hv⟩

/-- What was calm while the journal was muted is calm once it no longer is. -/
theorem calm_unmute (h : j.mute.Calm k) : j.Calm k.unmute := ⟨grows_unmute h.toGrows, h.violations⟩

theorem diagnostics_ne_empty (h : j.Extends k) (hj : j.diagnostics ≠ #[]) :
    k.diagnostics ≠ #[] := by
  intro hk
  obtain ⟨new, hnew⟩ := h.diagnostics
  rw [hk] at hnew
  refine hj (Array.toList_eq_nil_iff.mp ?_)
  exact (List.append_eq_nil_iff.mp hnew.symm).1

/-- A report is not lost, unless the journal is muted. -/
theorem report_ne_empty (hj : j.muteDepth = 0) (d : Diagnostic) :
    (j.report d).diagnostics ≠ #[] := by
  have hm : j.isMuted = false := by simp [isMuted, hj]
  rw [diagnostics_report, hm]
  simp

/-- Something that can be read off from a journal, and still can when the journal has grown. -/
def Lasts (E : Journal → Prop) : Prop := ∀ j k, Extends j k → E j → E k

end Journal

/-! ## What validations yield -/

namespace Validation

variable {α β : Type} {E : Journal → Prop} {P P' : Prop}

theorem run_bind_ok {v : Validation α} {f : α → Validation β} {j k : Journal} {a : α}
    (h : v.run j = (.ok a, k)) : (v >>= f).run j = (f a).run k := by
  show ExceptT.bindCont f (v.run j).1 (v.run j).2 = _
  rw [h]
  rfl

theorem run_bind_error {v : Validation α} {f : α → Validation β} {j k : Journal} {e : NarrowError}
    (h : v.run j = (.error e, k)) : (v >>= f).run j = (.error e, k) := by
  show ExceptT.bindCont f (v.run j).1 (v.run j).2 = _
  rw [h]
  rfl

/-- **What a validation comes to.** The result is the same whatever the journal; the journal grows
calmly; if something is said to be reported, it is, unless the journal is muted; and if `P` holds at the
beginning, a result satisfies `Q`, unless the journal has the excuse `E`. -/
def Yields (E : Journal → Prop) (P : Prop) (v : Validation α) (Q : α → Prop) : Prop :=
  ∃ r : Except NarrowError α, ∀ j : Journal, ∃ k : Journal, v.run j = (r, k) ∧ j.Calm k
    ∧ (r = .error .reported → j.muteDepth = 0 → k.diagnostics ≠ #[])
    ∧ (E j ∨ P → ∀ a, r = .ok a → E k ∨ Q a)

namespace Yields

variable {Q Q' : α → Prop} {v : Validation α}

protected theorem pure {a : α} (h : P → Q a) : Yields E P (pure a : Validation α) Q := by
  refine ⟨.ok a, fun j => ⟨j, rfl, .refl j, fun hr => (by cases hr), fun hP b hb => ?_⟩⟩
  cases hb
  exact hP.imp_right h

theorem mismatch : Yields E P (throw .mismatch : Validation α) Q :=
  ⟨.error .mismatch, fun j =>
    ⟨j, rfl, .refl j, fun hr => (by cases hr), fun _ _ hb => (by cases hb)⟩⟩

/-- **The rule for composites**: what the first part yields may be used for the second. -/
protected theorem bind {R : α → Prop} {S : β → Prop} {f : α → Validation β}
    (hE : Journal.Lasts E) (hv : Yields E P v R) (hf : ∀ a, Yields E (P ∧ R a) (f a) S) :
    Yields E P (v >>= f) S := by
  obtain ⟨r, hr⟩ := hv
  cases r with
  | error e =>
    refine ⟨.error e, fun j => ?_⟩
    obtain ⟨k, hrun, hgrow, hrep, -⟩ := hr j
    exact ⟨k, run_bind_error hrun, hgrow, fun h => hrep (by cases h; rfl),
      fun _ _ hb => (by cases hb)⟩
  | ok a =>
    obtain ⟨r', hr'⟩ := hf a
    refine ⟨r', fun j => ?_⟩
    obtain ⟨k, hrun, hgrow, -, hprop⟩ := hr j
    obtain ⟨l, hrun', hgrow', hrep', hprop'⟩ := hr' k
    refine ⟨l, (run_bind_ok hrun).trans hrun', hgrow.trans hgrow',
      fun h hm => hrep' h (hgrow.muteDepth.trans hm), fun hP => hprop' ?_⟩
    -- the excuse at the beginning lasts; without it, both `P` and what the first part yields hold
    rcases hP with hEj | hP
    · exact Or.inl (hE _ _ hgrow.toExtends hEj)
    · exact (hprop (Or.inr hP) a rfl).imp_right fun hR => ⟨hP, hR⟩

theorem mono (hE : Journal.Lasts E) (h : Yields E P v Q) (hP : P' → P)
    (hQ : ∀ a, P' → Q a → Q' a) : Yields E P' v Q' := by
  obtain ⟨r, hr⟩ := h
  refine ⟨r, fun j => ?_⟩
  obtain ⟨k, hrun, hgrow, hrep, hprop⟩ := hr j
  refine ⟨k, hrun, hgrow, hrep, fun hP' a ha => ?_⟩
  rcases hP' with hEj | hP'
  · exact Or.inl (hE _ _ hgrow.toExtends hEj)
  · exact (hprop (Or.inr (hP hP')) a ha).imp_right (hQ a hP')

theorem weaken (hE : Journal.Lasts E) (h : Yields E P v Q) (hP : P' → P) : Yields E P' v Q :=
  h.mono hE hP fun _ _ hQ => hQ

/-- Something is written to the journal and nothing else happens. -/
theorem write {f : Journal → Journal} (hf : ∀ j : Journal, j.Calm (f j)) :
    Yields E P (modify f : Validation Unit) fun _ => True :=
  ⟨.ok (), fun j => ⟨f j, rfl, hf j, fun hr => (by cases hr), fun _ _ _ => Or.inr trivial⟩⟩

/-- A validation that is only tried: what it reports is dropped, but the rest of the journal
stays. -/
theorem attempt {v : Validation Ty} {Q : Ty → Prop} (hE : Journal.Lasts E) (h : Yields E P v Q) :
    Yields E P (liftM (Validation.attempt v)) fun result => ∀ ty, result = some ty → Q ty := by
  obtain ⟨r, hr⟩ := h
  refine ⟨.ok r.toOption, fun j => ?_⟩
  -- the validation runs on the muted journal; its result does not depend on that
  obtain ⟨k, hrun, hgrow, -, hprop⟩ := hr j.mute
  have hk : k.Extends k.unmute := ⟨⟨[], by simp [Journal.unmute]⟩, ⟨[], by simp [Journal.unmute]⟩⟩
  refine ⟨k.unmute, ?_, Journal.calm_unmute hgrow, fun hr => (by cases hr), fun hP a ha => ?_⟩
  · show (Except.ok (v.run j.mute).1.toOption, (v.run j.mute).2.unmute) = _
    rw [hrun]
  · cases ha
    have hP' : E j.mute ∨ P := hP.imp_left (hE _ _ (Journal.extends_mute j))
    cases r with
    | error e => exact Or.inr fun ty hty => (by cases hty)
    | ok ty =>
      refine (hprop hP' ty rfl).imp (hE _ _ hk) fun hQ ty' hty => ?_
      cases hty
      exact hQ

/-- A validation of each element of a list, in turn. -/
theorem mapM {R : α → β → Prop} {f : α → Validation β} (hE : Journal.Lasts E) (l : List α)
    (h : ∀ x ∈ l, Yields E P (f x) (R x)) : Yields E P (l.mapM f) (List.Forall₂ R l) := by
  induction l with
  | nil =>
    rw [List.mapM_nil]
    exact .pure fun _ => .nil
  | cons x l ih =>
    rw [List.mapM_cons]
    refine (h x List.mem_cons_self).bind hE fun y => ?_
    refine ((ih fun z hz => h z (List.mem_cons_of_mem _ hz)).weaken hE And.left).bind hE fun ys => ?_
    exact .pure fun hall => .cons hall.1.2 hall.2

end Yields

/-! ## The parts that all validations are made of -/

variable {Q : Ty → Prop}

/-- Narrowing gives the narrowed type; what has no narrowing is in the log and may be the excuse. -/
theorem yields_narrow (hE : Journal.Lasts E) (ty : Ty)
    (h : P → Q ty.narrowed ∨ ∀ j : Journal, E (j.noteAll (ty.withoutNarrowing.map .noNarrowing))) :
    Yields E P (narrow ty) Q := by
  refine ⟨.ok ty.narrowed, fun j => ⟨_, rfl, Journal.calm_noNarrowing j _, fun hr => (by cases hr),
    fun hP a ha => ?_⟩⟩
  cases ha
  rcases hP with hEj | hP
  · exact Or.inl (hE _ _ (Journal.calm_noNarrowing j _).toExtends hEj)
  · exact (h hP).symm.imp_left fun hall => hall j

theorem yields_fill (site : Site) (ty : Ty) (h : P → ∀ d, ty.default = .ok d → Q d) :
    Yields E P (fill site ty) Q := by
  unfold fill
  cases hd : ty.default with
  | ok d => exact .pure fun hP => h hP d hd
  | error part =>
    -- without a place for the report it goes to the log, and the failure stays silent
    cases site.anchor with
    | some location =>
      refine ⟨.error .reported, fun j => ⟨j.report (.error location (.noDefault part)), rfl,
        Journal.calm_report j rfl, fun _ hm => Journal.report_ne_empty hm _, fun _ _ hb => ?_⟩⟩
      cases hb
    | none =>
      refine ⟨.error .mismatch, fun j => ⟨j.note (.noDefault part), rfl,
        Journal.calm_note j fun _ h => (by cases h),
        fun hr => (by cases hr), fun _ _ hb => ?_⟩⟩
      cases hb

/-- A selection is among the candidates, or was made before. -/
theorem mem_of_select {choice : Choice} {tys : List Ty} {ty : Ty} (h : select choice tys = some ty) :
    ty ∈ tys ∨ ∃ kind, choice.selected = some (ty, kind) := by
  fun_induction select choice tys with
  | case1 choice hamb => cases h
  | case2 choice hamb =>
    obtain ⟨⟨first, kind⟩, hsel, rfl⟩ := Option.map_eq_some_iff.mp h
    exact Or.inr ⟨kind, hsel⟩
  | case3 choice first tys hk =>
    cases h
    exact Or.inl List.mem_cons_self
  | case4 choice first tys hk ih | case5 choice first tys hk hnone ih =>
    -- what is selected here is the head of the list
    rcases ih h with hmem | ⟨kind, hsel⟩
    · exact Or.inl (List.mem_cons_of_mem _ hmem)
    · cases hsel
      exact Or.inl List.mem_cons_self
  | case6 choice first tys hk other hsome ih | case7 choice first tys hk other hne hsome ih
  | case8 choice first tys hk ih =>
    exact (ih h).imp_left (List.mem_cons_of_mem _)

theorem yields_reportChoice (site : Site) (candidates : Ty) :
    Yields E P (reportChoice site candidates) fun _ => True := by
  unfold reportChoice
  cases site.anchor with
  | some location => exact .write fun j => Journal.calm_report j rfl
  | none => exact .write fun j => Journal.calm_note j fun _ h => (by cases h)

/-- The choice falls on one of the types that fit. -/
theorem yields_choose (hE : Journal.Lasts E) (site : Site) (fitting : List Ty) :
    Yields E (∀ ty ∈ fitting, Q ty) (choose site fitting) Q := by
  unfold choose
  split
  · exact .mismatch
  · exact .pure fun h => h _ List.mem_cons_self
  · rename_i first rest _
    split
    · rename_i ty hsel
      refine .pure fun h => h ty ?_
      rcases mem_of_select hsel with hmem | ⟨kind, hnone⟩
      · exact hmem
      · cases hnone
    · refine (yields_reportChoice site _).bind hE fun _ => ?_
      exact .pure fun h => h.1 first List.mem_cons_self

/-- An error is the result for an error, and any other type is looked through first. -/
theorem yields_unlessError {f : Ty → Validation Ty} (inferred : Ty)
    (herror : inferred.effective = .error → P → Q .error)
    (h : inferred.effective.isError = false → Yields E P (f inferred.effective) Q) :
    Yields E P (unlessError inferred f) Q := by
  unfold unlessError
  by_cases he : inferred.effective.isError = true
  · rw [if_pos he]
    exact .pure (herror (Ty.isError_iff.mp he))
  · rw [if_neg he]
    exact h (Bool.eq_false_iff.mpr he)

end Validation

end ConstNarrow
