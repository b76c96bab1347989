/-
**Whole sessions**: what every call leaves in order.

A checker may be called in any way and any number of times: to resolve constants, to evaluate an
expression in some scope, to validate, to fill, or to commit a type to an expression. While a call
goes on, constants are under way, resolution nests, an anchor is set and the journal may be muted.
All of this is undone at the end, on whatever path the call comes there, and what was known before
stays known.

One relation, `Steady`, says this of the state before and of the state after. Each step of a
computation has it, and it composes; the one place where it is not obvious is a constant that is
resolved on the way, which is entered and left. So it is kept up wherever evaluation goes, by the
induction on the constants that nothing has asked for. Nothing is asked of the program but that no
expression contains itself.
-/
import ConstNarrow.Proofs.Footprint
import ConstNarrow.Proofs.Likeness
import ConstNarrow.Proofs.OrderIndependence
import ConstNarrow.Proofs.Validated

set_option autoImplicit false

namespace ConstNarrow

open Checker

variable {p : Program} {s t u : Checker} {c : ConstId}

/-! ## States and what is kept between them -/

/-- What holds of a state at any time: reports are not dropped, and only a constant that was asked
for has a value. -/
structure Checker.WellKept (s : Checker) : Prop where
  unmuted : s.journal.muteDepth = 0
  valued : ∀ c, s.status.get? c = none → s.values.get? c = none

/-- **What a computation leaves in order.** What was asked for stays as it is, and nothing new is
under way; values stay, depth and anchor are as before, and the journal has been added to. -/
structure Checker.Steady (s t : Checker) : Prop where
  wellKept : t.WellKept
  kept : ∀ c status, s.status.get? c = some status → t.status.get? c = some status
  resolving : ∀ c, t.status.get? c = some .resolving → s.status.get? c = some .resolving
  values : ∀ c value, s.values.get? c = some value → t.values.get? c = some value
  depth : t.depth = s.depth
  anchor : t.anchor = s.anchor
  journal : s.journal.Extends t.journal

namespace Checker.Steady

theorem refl (h : s.WellKept) : s.Steady s :=
  ⟨h, fun _ _ h => h, fun _ h => h, fun _ _ h => h, rfl, rfl, .refl _⟩

/-- What is left in order stays so from one computation to the next. -/
theorem trans (h : s.Steady t) (h' : t.Steady u) : s.Steady u where
  wellKept := h'.wellKept
  kept := fun c status hc => h'.kept c status (h.kept c status hc)
  resolving := fun c hc => h.resolving c (h'.resolving c hc)
  values := fun c value hc => h'.values c value (h.values c value hc)
  depth := h'.depth.trans h.depth
  anchor := h'.anchor.trans h.anchor
  journal := h.journal.trans h'.journal

theorem asked (h : s.Steady t) {x : ConstId} (hx : s.status.get? x ≠ none) :
    t.status.get? x ≠ none := by
  obtain ⟨status, hstatus⟩ := Option.ne_none_iff_exists'.mp hx
  rw [h.kept x status hstatus]
  simp

/-- Something is written to the journal. -/
theorem journal_only (hs : s.WellKept) {j : Journal} (hext : s.journal.Extends j)
    (hmute : j.muteDepth = s.journal.muteDepth) : s.Steady { s with journal := j } :=
  ⟨⟨hmute.trans hs.unmuted, hs.valued⟩, fun _ _ h => h, fun _ h => h, fun _ _ h => h, rfl, rfl, hext⟩

theorem report (hs : s.WellKept) (d : Diagnostic) :
    s.Steady { s with journal := s.journal.report d } :=
  journal_only hs (s.journal.extends_report d) (Journal.muteDepth_report _ _)

theorem of_aside (hs : s.WellKept) (h : Aside s t) : s.Steady t where
  wellKept := ⟨h.journal.muteDepth.trans hs.unmuted, h.status ▸ h.values ▸ hs.valued⟩
  kept := fun _ _ hc => h.status ▸ hc
  resolving := fun _ hc => h.status ▸ hc
  values := fun _ _ hc => h.values ▸ hc
  depth := h.depth
  anchor := h.anchor
  journal := h.journal.toExtends

theorem withType (h : s.Steady t) (id : ExprId) (ty : Ty) : s.Steady (t.withType id ty) :=
  ⟨⟨h.wellKept.unmuted, h.wellKept.valued⟩, h.kept, h.resolving, h.values, h.depth, h.anchor,
    h.journal⟩

end Checker.Steady

/-- The constant that is entered is asked for and has no value yet. -/
theorem Checker.WellKept.enter (h : s.WellKept) (c : ConstId) (name : String) :
    (s.enter c name).WellKept := by
  refine ⟨h.unmuted, fun x hx => h.valued x ?_⟩
  rw [status_enter] at hx
  split at hx
  · cases hx
  · exact hx

/-- **A constant that was entered and is left has disturbed nothing.** It had no value before, as
nothing had asked for it. -/
theorem Checker.Steady.leave (hs : s.WellKept) (hnew : s.status.get? c = none) {name : String}
    (h : (s.enter c name).Steady t) (ty : Ty) : s.Steady (t.leave c name ty) := by
  have hstatus := status_leave t c name ty
  have hvalues := values_leave t c name ty
  have hgrows : t.journal.Grows (t.leave c name ty).journal := Journal.grows_concluded _ _ _
  refine ⟨⟨hgrows.muteDepth.trans h.wellKept.unmuted, fun x hx => ?_⟩, fun x status hx => ?_,
    fun x hx => ?_, fun x value hx => ?_, h.depth, h.anchor, ?_⟩
  · rw [hstatus] at hx
    split at hx
    · cases hx
    · rename_i hxc
      rw [hvalues, if_neg hxc]
      exact h.wellKept.valued x hx
  · have hxc : x ≠ c := by
      rintro rfl
      rw [hnew] at hx
      cases hx
    rw [hstatus, if_neg hxc]
    exact h.kept x status ((status_enter s c name x).trans ((if_neg hxc).trans hx))
  · rw [hstatus] at hx
    split at hx
    · cases hx
    · rename_i hxc
      have hentered := h.resolving x hx
      rwa [status_enter, if_neg hxc] at hentered
  · have hxc : x ≠ c := by
      rintro rfl
      rw [hs.valued x hnew] at hx
      cases hx
    rw [hvalues, if_neg hxc]
    exact h.values x value hx
  · exact ((s.journal.grows_note _).toExtends.trans h.journal).trans hgrows.toExtends

/-- **Constants that are rejected together have disturbed nothing**, if nothing had asked for them. -/
theorem Checker.Steady.reject (hs : s.WellKept) {members : List ConstId}
    (hnew : ∀ id ∈ members, s.status.get? id = none) {j : Journal} (hext : s.journal.Extends j)
    (hmute : j.muteDepth = s.journal.muteDepth) :
    s.Steady { s with
      status := members.foldl (fun t id => t.insert id (.resolved .error)) s.status
      journal := j } := by
  have hstatus := get?_foldl_insert members (Status.resolved .error) s.status
  refine ⟨⟨hmute.trans hs.unmuted, fun x hx => hs.valued x ?_⟩, fun x status hx => ?_,
    fun x hx => ?_, fun _ _ h => h, rfl, rfl, hext⟩
  · rw [hstatus] at hx
    split at hx
    · cases hx
    · exact hx
  · have hnot : x ∉ members := fun hmem => by simp [hnew x hmem] at hx
    rw [hstatus, if_neg hnot]
    exact hx
  · rw [hstatus] at hx
    split at hx
    · cases hx
    · exact hx

/-- The depth that is taken back is the one that was added. -/
theorem Checker.Steady.nested (h : ({ s with depth := s.depth + 1 } : Checker).Steady t) :
    s.Steady { t with depth := t.depth - 1 } := by
  refine ⟨⟨h.wellKept.unmuted, h.wellKept.valued⟩, h.kept, h.resolving, h.values, ?_, h.anchor,
    h.journal⟩
  show t.depth - 1 = s.depth
  rw [h.depth]
  rfl

/-- **That everything stays in order is kept up** by whatever evaluation and resolution do. -/
def Checker.Upkeep.steady : Upkeep where
  fit := WellKept
  rel := Steady
  refl := Steady.refl
  fits := Steady.wellKept
  trans := Steady.trans
  recalls := fun h _ hx => h.asked hx
  aside := Steady.of_aside
  report := Steady.report
  withType := fun h id ty => (Steady.refl h).withType id ty
  deeper := fun h => ⟨h.unmuted, h.valued⟩
  nested := Steady.nested
  enter := WellKept.enter
  leave := fun hs hnew => Steady.leave hs hnew

/-! ## Calls -/

/-- That a computation ends in every state, and leaves everything in order. -/
def Steadies {α : Type} (m : CheckM α) : Prop :=
  ∀ s : Checker, s.WellKept → Ends m s fun _ t => s.Steady t

namespace Steadies

variable {α β : Type}

protected theorem pure (a : α) : Steadies (pure a : CheckM α) := fun _ hs => .pure (.refl hs)

/-- Calls that leave everything in order may be made one after another. -/
protected theorem bind {m : CheckM α} {f : α → CheckM β} (hm : Steadies m)
    (hf : ∀ a, Steadies (f a)) : Steadies (m >>= f) := by
  intro s hs
  refine (hm s hs).bind fun a t ht => ?_
  exact (hf a t ht.wellKept).mono fun b u hu => ht.trans hu

/-- A call whose result is not used. -/
theorem ignored {m : CheckM α} (hm : Steadies m) : Steadies (do let _ ← m) :=
  hm.bind fun _ => .pure ()

protected theorem forM {l : List α} {f : α → CheckM Unit} (h : ∀ a ∈ l, Steadies (f a)) :
    Steadies (l.forM f) := by
  induction l with
  | nil => exact .pure ()
  | cons a l ih =>
    obtain ⟨hfirst, hrest⟩ := List.forall_mem_cons.mp h
    exact hfirst.bind fun _ => ih hrest

theorem note (e : Event) : Steadies (note e) := fun s hs =>
  .modify (.journal_only hs (s.journal.grows_note e).toExtends rfl)

/-- **A constant is resolved to the end**, by way of all it refers to. -/
theorem resolve (hacyclic : p.source.Acyclic) (c : ConstId) : Steadies (resolve p c) := by
  intro s hs
  obtain ⟨ty, t, _, hrun, -, rfl, ht⟩ := Likeness.agree_resolveWith (L := .exact) (K := .steady)
    hacyclic hs rfl (fun s₁ e _ => Likeness.exact.alike_evaluate .steady hacyclic s₁ e) c
  exact ⟨ty, t, hrun, ht⟩

/-- **An expression is evaluated to the end**, by way of all constants in it. -/
theorem evaluate (hacyclic : p.source.Acyclic) (e : ExprId) (frame : Frame) :
    Steadies (evaluate p e frame) := by
  intro s hs
  obtain ⟨ty, t, _, hrun, -, rfl, ht⟩ :=
    (Likeness.exact.alike_evaluate .steady hacyclic s e).agree hs rfl frame
  exact ⟨ty, t, hrun, ht⟩

/-- A type is committed to an expression and to all its parts in turn. -/
theorem commit (hacyclic : p.source.Acyclic) (e : ExprId) (ty : Ty) : Steadies (commit p e ty) := by
  intro s hs
  have hheight : p.source.height e < p.source.exprs.size + 1 :=
    Nat.lt_succ_of_le (Module.height_le hacyclic e)
  obtain ⟨_, t, _, hrun, -, ⟨rfl, ht⟩, -⟩ :=
    (Likeness.exact.onTheWay .steady p Module.root s).commits_commitWithin hacyclic trivial hheight ty
      s s ⟨rfl, .refl hs⟩ (Or.inr ⟨fun _ => trivial, trivial, trivial⟩)
  exact ⟨(), t, hrun, ht⟩

theorem validation {v : Site → Validation Ty} {P : Prop} {Q : Ty → Prop}
    (hv : ∀ site, Validation.Yields (fun _ => False) P (v site) Q) (hP : P) :
    Steadies (validation p v) := by
  intro s hs
  obtain ⟨outcome, journal, hrun, hcalm, -⟩ := Validation.Yields.exists_run (p := p) hv hP s
  exact ⟨outcome, _, hrun, .journal_only hs hcalm.toExtends hcalm.muteDepth⟩

theorem validType (expected inferred : Ty) : Steadies (validType p expected inferred) :=
  validation (fun site => Discipline.free.yields_validate site expected inferred)
    ⟨trivial, Discipline.everywhere_true expected⟩

theorem fillValue (ty : Ty) : Steadies (fillValue p ty) :=
  validation (P := True) (Q := fun _ => True)
    (fun site => Validation.yields_fill site ty fun _ _ _ => trivial) trivial

/-- A cycle is rejected as a whole, if nothing has asked for any of it. -/
theorem refuseCycle (members : List ConstId) : Steadies (refuseCycle p members) := by
  intro s hs
  by_cases hany : members.any s.status.contains = true
  · obtain ⟨id, hid, hasked⟩ := List.any_eq_true.mp hany
    exact ⟨(), s, run_refuseCycle_asked hid (Option.isSome_iff_ne_none.mp hasked), .refl hs⟩
  · have hnew : ∀ id ∈ members, s.status.get? id = none := by
      intro id hid
      by_contra hne
      exact hany (List.any_eq_true.mpr ⟨id, hid, Option.isSome_iff_ne_none.mpr hne⟩)
    let names := (members.filterMap fun id => p.source.constants[id]?).map Constant.name
    have hnoted := (s.journal.grows_note (.rejectingCycle names)).toExtends
    unfold Ends Checker.refuseCycle
    rw [StateT.run_bind, StateT.run_get, pure_bind, if_neg hany, run_bind_some rfl,
      run_bind_some (run_forM_setStatus _ _ _)]
    -- the cycle is reported at its first constant, if there is one
    split
    · rename_i first others _
      exact ⟨(), _, rfl, .reject hs hnew (hnoted.trans (Journal.extends_report _ _))
        (Journal.muteDepth_report _ _)⟩
    · exact ⟨(), _, rfl, .reject hs hnew hnoted rfl⟩

/-- To resolve all constants is to resolve one group after another. -/
theorem resolveAll (hacyclic : p.source.Acyclic) : Steadies (resolveAll p) := by
  refine (note _).bind fun _ => .forM fun group _ => ?_
  unfold resolveGroup
  split
  · exact refuseCycle group.members
  · exact .forM fun id _ => (resolve hacyclic id).ignored

end Steadies

/-! ## Sessions -/

/-- What a checker may be called for. -/
inductive Call where
  | resolveAll
  | resolve (id : ConstId)
  | evaluate (id : ExprId) (frame : Frame)
  | validType (expected inferred : Ty)
  | fillValue (ty : Ty)
  | commit (id : ExprId) (ty : Ty)

/-- Does what a call asks for. -/
def Call.perform (p : Program) : Call → CheckM Unit
  | .resolveAll => Checker.resolveAll p
  | .resolve id => do
    let _ ← Checker.resolve p id
  | .evaluate id frame => do
    let _ ← Checker.evaluate p id frame
  | .validType expected inferred => do
    let _ ← Checker.validType p expected inferred
  | .fillValue ty => do
    let _ ← Checker.fillValue p ty
  | .commit id ty => Checker.commit p id ty

/-- The state of a fresh checker after some calls. -/
def Program.after (p : Program) (calls : List Call) : Option Checker :=
  ((calls.forM (Call.perform p)).run .start).map Prod.snd

theorem Steadies.perform (hacyclic : p.source.Acyclic) (call : Call) :
    Steadies (call.perform p) := by
  cases call with
  | resolveAll => exact .resolveAll hacyclic
  | resolve id => exact (Steadies.resolve hacyclic id).ignored
  | evaluate id frame => exact (Steadies.evaluate hacyclic id frame).ignored
  | validType expected inferred => exact (Steadies.validType expected inferred).ignored
  | fillValue ty => exact (Steadies.fillValue ty).ignored
  | commit id ty => exact .commit hacyclic id ty

/-- A state in which nothing is going on: no constant is under way, resolution does not nest, no
anchor is set, and reports are not dropped. -/
structure Checker.Tidy (s : Checker) : Prop where
  settled : ∀ c, s.status.get? c ≠ some .resolving
  depth : s.depth = 0
  anchor : s.anchor = none
  unmuted : s.journal.muteDepth = 0

/-- What was known in a state is known in another: the types of resolved constants, the values, and
the diagnostics, which come first. -/
structure Checker.Keeps (s t : Checker) : Prop where
  types : ∀ c ty, s.status.get? c = some (.resolved ty) → t.status.get? c = some (.resolved ty)
  values : ∀ c value, s.values.get? c = some value → t.values.get? c = some value
  diagnostics : s.journal.diagnostics.toList <+: t.journal.diagnostics.toList

theorem Checker.Steady.tidy (h : s.Steady t) (hs : s.Tidy) : t.Tidy where
  settled := fun c hc => hs.settled c (h.resolving c hc)
  depth := h.depth.trans hs.depth
  anchor := h.anchor.trans hs.anchor
  unmuted := h.wellKept.unmuted

theorem Checker.Steady.keeps (h : s.Steady t) : s.Keeps t where
  types := fun c ty hc => h.kept c (.resolved ty) hc
  values := h.values
  diagnostics := by
    obtain ⟨new, hnew⟩ := h.journal.diagnostics
    exact ⟨new, hnew.symm⟩

/-- **The discipline of a session.** In a program in which no expression contains itself, every
sequence of calls comes to an end, and then nothing is going on; and every further call ends too, and
keeps what was known. -/
theorem sessions_keep_discipline (p : Program) (hacyclic : p.source.Acyclic) (calls : List Call) :
    ∃ s, p.after calls = some s ∧ s.Tidy
      ∧ ∀ call : Call, ∃ t, (call.perform p).run s = some ((), t) ∧ s.Keeps t := by
  have hstart : Checker.start.WellKept := ⟨rfl, fun _ _ => rfl⟩
  have htidy : Checker.start.Tidy := ⟨fun _ h => (by cases h), rfl, rfl, rfl⟩
  obtain ⟨_, s, hrun, hs⟩ :=
    Steadies.forM (fun call _ => Steadies.perform hacyclic call) (l := calls) .start hstart
  refine ⟨s, by rw [Program.after, hrun]; rfl, hs.tidy htidy, fun call => ?_⟩
  obtain ⟨_, t, hcall, ht⟩ := Steadies.perform hacyclic call s hs.wellKept
  exact ⟨t, hcall, ht.keeps⟩

/-- A session that leaves the usual paths: a type is committed to an expression that has none, a
constant on a cycle is evaluated from outside, and an array of unknown size is to be filled. -/
theorem crossing_keeps_discipline : crossing.source.Acyclic
    ∧ ∃ s, crossing.after [.commit 2 (.primitive .int), .evaluate 3 ⟨none, Module.root⟩,
        .fillValue (.array .json .inferred), .validType (.union [.json, .anydata]) .error, .resolve 9,
        .resolveAll] = some s
      ∧ s.Tidy ∧ ∀ call : Call, ∃ t, (call.perform crossing).run s = some ((), t) ∧ s.Keeps t :=
  ⟨crossing_orderly.acyclic, sessions_keep_discipline crossing crossing_orderly.acyclic _⟩

end ConstNarrow
