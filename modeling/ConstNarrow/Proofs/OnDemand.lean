/-
**Resolution on demand.**

A constant may be asked for at any time, and what it names is then resolved on the way. Whatever
has been resolved before, a constant that is asked for ends with the type that it settles on.

While a constant is typed, the state is compared with the state of a run that types this constant
alone, under the types that the others settle on. The two agree on the expressions of the constant:
nothing else that is resolved on the way touches these, since no expression belongs to two
constants. A name that is met is either resolved, or it is resolved now, or it is under way. In the
last case the constant lies on a cycle, and the error that is reported is the type that it settles
on.

The recursion goes down with the number of constants that nothing has asked for. The same number
bounds how deeply resolution nests.
-/
import ConstNarrow.Proofs.StableTypes
import ConstNarrow.Proofs.Trees

set_option autoImplicit false

namespace ConstNarrow

open Checker

/-- A program for which it does not matter in what order its constants are asked for: names and
expressions lead somewhere and never back, the constants share no expressions, and resolution may
nest as deeply as there are constants. -/
structure Program.Orderly (p : Program) : Prop where
  names : p.source.NamesExist
  acyclic : p.source.Acyclic
  separate : p.source.Separate
  deep : p.source.constants.size ≤ p.settings.maxDepth

variable {p : Program} {c d target : ConstId} {constant : Constant} {s₀ s s' t : Checker}

/-! ## What holds of a state at any time -/

/-- **What holds of a state whatever has been asked for.** The constants that are resolved have the
types that they settle on, and what they depend on has been asked for. What nothing has asked for
has left no trace. -/
structure Faithful (p : Program) (s : Checker) : Prop where
  unmuted : s.journal.muteDepth = 0
  bounded : ∀ c, s.status.get? c ≠ none → c < p.source.constants.size
  resolved : ∀ c ty, s.status.get? c = some (.resolved ty) →
    ty = p.stableType c ∧ s.values.get? c = Value.ofTy? ty
  valueless : ∀ c, (∀ ty, s.status.get? c ≠ some (.resolved ty)) → s.values.get? c = none
  fresh : ∀ c constant, p.source.constants[c]? = some constant → s.status.get? c = none →
    ∀ e, p.source.Within constant.value e → s.exprTypes.get? e = none
  closed : ∀ c ty, s.status.get? c = some (.resolved ty) →
    ∀ d, p.source.DependsOn c d → s.status.get? d ≠ none

/-- A state on the way from another one: what was asked for before stays as it is, and so do the
types of its expressions, unless it is the constant that is being typed. -/
structure Onward (p : Program) (typed : Option ConstId) (s₀ s : Checker) : Prop where
  faithful : Faithful p s
  kept : ∀ x status, s₀.status.get? x = some status → s.status.get? x = some status
  resolving : ∀ x, s.status.get? x = some .resolving → s₀.status.get? x = some .resolving
  types : ∀ x other, p.source.constants[x]? = some other → some x ≠ typed →
    s₀.status.get? x ≠ none → ∀ e, p.source.Within other.value e →
      s.exprTypes.get? e = s₀.exprTypes.get? e
  depth : s.depth = s₀.depth

theorem Onward.asked {typed : Option ConstId} (h : Onward p typed s₀ s) {x : ConstId}
    (hx : s₀.status.get? x ≠ none) : s.status.get? x ≠ none := by
  obtain ⟨status, hstatus⟩ := Option.ne_none_iff_exists'.mp hx
  rw [h.kept x status hstatus]
  simp

theorem Onward.refl {typed : Option ConstId} (h : Faithful p s) : Onward p typed s s :=
  ⟨h, fun _ _ h => h, fun _ h => h, fun _ _ _ _ _ _ _ => rfl, rfl⟩

theorem Onward.trans {typed : Option ConstId} (h : Onward p typed s₀ s) (h' : Onward p none s s') :
    Onward p typed s₀ s' where
  faithful := h'.faithful
  kept := fun x status hx => h'.kept x status (h.kept x status hx)
  resolving := fun x hx => h.resolving x (h'.resolving x hx)
  types := by
    intro x other hother hne hx e he
    rw [h'.types x other hother (by simp) (h.asked hx) e he, h.types x other hother hne hx e he]
  depth := h'.depth.trans h.depth

/-- Nothing but the journal, the signatures and the anchor has changed. -/
theorem Faithful.aside (h : Faithful p s) (hstatus : s'.status = s.status)
    (hvalues : s'.values = s.values) (htypes : s'.exprTypes = s.exprTypes)
    (hunmuted : s'.journal.muteDepth = 0) : Faithful p s' where
  unmuted := hunmuted
  bounded := fun c => hstatus ▸ h.bounded c
  resolved := fun c ty => hstatus ▸ hvalues ▸ h.resolved c ty
  valueless := fun c => hstatus ▸ hvalues ▸ h.valueless c
  fresh := fun c constant hc => hstatus ▸ htypes ▸ h.fresh c constant hc
  closed := fun c ty => hstatus ▸ h.closed c ty

theorem Onward.aside {typed : Option ConstId} (h : Onward p typed s₀ s)
    (hstatus : s'.status = s.status) (hvalues : s'.values = s.values)
    (htypes : s'.exprTypes = s.exprTypes) (hdepth : s'.depth = s.depth)
    (hunmuted : s'.journal.muteDepth = 0) : Onward p typed s₀ s' where
  faithful := h.faithful.aside hstatus hvalues htypes hunmuted
  kept := fun x status => hstatus ▸ h.kept x status
  resolving := fun x => hstatus ▸ h.resolving x
  types := fun x other hother hne hx e he => htypes ▸ h.types x other hother hne hx e he
  depth := hdepth.trans h.depth

/-- An expression of the constant that is being typed gets a type. -/
theorem Onward.withType (hseparate : p.source.Separate)
    (hconstant : p.source.constants[c]? = some constant) (hc : s₀.status.get? c ≠ none)
    (h : Onward p (some c) s₀ s) {e : ExprId} (he : p.source.Within constant.value e) (ty : Ty) :
    Onward p (some c) s₀ (s.withType e ty) := by
  -- the expression belongs to no other constant
  have hother : ∀ x other, p.source.constants[x]? = some other → x ≠ c →
      ∀ e', p.source.Within other.value e' →
        (s.withType e ty).exprTypes.get? e' = s.exprTypes.get? e' := by
    intro x other hother hne e' he'
    have hne' : e' ≠ e := by
      rintro rfl
      exact hseparate x c other constant hother hconstant hne e' he' he
    exact (Table.get?_insert _ _ _ _).trans (if_neg hne')
  refine ⟨⟨h.faithful.unmuted, h.faithful.bounded, h.faithful.resolved, h.faithful.valueless, ?_,
    h.faithful.closed⟩, h.kept, h.resolving, ?_, h.depth⟩
  · intro x other hx hnone e' he'
    have hne : x ≠ c := by
      rintro rfl
      exact h.asked hc hnone
    rw [hother x other hx hne e' he', h.faithful.fresh x other hx hnone e' he']
  · intro x other hx hne hasked e' he'
    have hne' : x ≠ c := fun heq => hne (congrArg some heq)
    rw [hother x other hx hne' e' he', h.types x other hx hne hasked e' he']

/-- Some constants get the types that they settle on. What they depend on has been asked for, or is
among them. -/
theorem Faithful.settle {X : ConstId → Prop} (h : Faithful p s)
    (hstatus : ∀ x, X x → s'.status.get? x = some (.resolved (p.stableType x)))
    (hvalue : ∀ x, X x → s'.values.get? x = Value.ofTy? (p.stableType x))
    (hother : ∀ x, ¬ X x →
      s'.status.get? x = s.status.get? x ∧ s'.values.get? x = s.values.get? x)
    (htypes : s'.exprTypes = s.exprTypes) (hunmuted : s'.journal.muteDepth = 0)
    (hlt : ∀ x, X x → x < p.source.constants.size)
    (hclosed : ∀ x, X x → ∀ d, p.source.DependsOn x d → s.status.get? d ≠ none ∨ X d) :
    Faithful p s' := by
  have hasked : ∀ d, s.status.get? d ≠ none ∨ X d → s'.status.get? d ≠ none := by
    intro d hd
    by_cases hX : X d
    · simp [hstatus d hX]
    · rw [(hother d hX).1]
      exact hd.resolve_right hX
  refine ⟨hunmuted, fun x hx => ?_, fun x ty hx => ?_, fun x hx => ?_,
    fun x constant hconstant hx e he => ?_, fun x ty hx d hd => ?_⟩
  · by_cases hX : X x
    · exact hlt x hX
    · exact h.bounded x ((hother x hX).1 ▸ hx)
  · by_cases hX : X x
    · rw [hstatus x hX] at hx
      cases hx
      exact ⟨rfl, hvalue x hX⟩
    · rw [(hother x hX).1] at hx
      rw [(hother x hX).2]
      exact h.resolved x ty hx
  · have hX : ¬ X x := fun hX => hx _ (hstatus x hX)
    rw [(hother x hX).2]
    exact h.valueless x fun ty hty => hx ty ((hother x hX).1.trans hty)
  · have hX : ¬ X x := fun hX => by simp [hstatus x hX] at hx
    rw [htypes]
    exact h.fresh x constant hconstant ((hother x hX).1 ▸ hx) e he
  · by_cases hX : X x
    · exact hasked d (hclosed x hX d hd)
    · exact hasked d (Or.inl (h.closed x ty ((hother x hX).1 ▸ hx) d hd))

/-! ## What is left to ask for -/

open Classical in
/-- The number of constants that nothing has asked for. -/
noncomputable def unasked (p : Program) (s : Checker) : Nat :=
  ((Finset.range p.source.constants.size).filter fun c => s.status.get? c = none).card

theorem unasked_le (p : Program) (s : Checker) : unasked p s ≤ p.source.constants.size :=
  (Finset.card_filter_le _ _).trans_eq (Finset.card_range _)

theorem unasked_mono (h : ∀ x, s₀.status.get? x ≠ none → s.status.get? x ≠ none) :
    unasked p s ≤ unasked p s₀ := by
  classical
  refine Finset.card_le_card fun x hx => ?_
  rw [Finset.mem_filter] at hx ⊢
  exact ⟨hx.1, by_contra fun hne => h x hne hx.2⟩

theorem unasked_lt (hc : c < p.source.constants.size) (hnone : s₀.status.get? c = none)
    (hasked : s.status.get? c ≠ none)
    (h : ∀ x, s₀.status.get? x ≠ none → s.status.get? x ≠ none) : unasked p s < unasked p s₀ := by
  classical
  refine Finset.card_lt_card (Finset.ssubset_iff_subset_ne.mpr ⟨fun x hx => ?_, fun heq => ?_⟩)
  · rw [Finset.mem_filter] at hx ⊢
    exact ⟨hx.1, by_contra fun hne => h x hne hx.2⟩
  · have hmem :
        c ∈ (Finset.range p.source.constants.size).filter fun c => s₀.status.get? c = none :=
      Finset.mem_filter.mpr ⟨Finset.mem_range.mpr hc, hnone⟩
    rw [← heq, Finset.mem_filter] at hmem
    exact hasked hmem.2

/-- **A constant can be asked for**: nothing has asked for it yet, all that is under way needs it,
and there is room for the nesting of all constants that are left. -/
structure Askable (p : Program) (n : Nat) (s : Checker) (c : ConstId) : Prop where
  faithful : Faithful p s
  exists_constant : c < p.source.constants.size
  new : s.status.get? c = none
  pending : ∀ x, s.status.get? x = some .resolving → p.source.Needs x c
  depth : s.depth + unasked p s ≤ p.source.constants.size
  room : unasked p s * (p.source.exprs.size + 1) ≤ n

/-- **A constant is under way**, and all else that is under way needs it. -/
structure Underway (p : Program) (s : Checker) (c : ConstId) : Prop where
  faithful : Faithful p s
  resolving : s.status.get? c = some .resolving
  pending : ∀ x, s.status.get? x = some .resolving → p.source.Needs x c
  depth : s.depth + unasked p s < p.source.constants.size

/-- What asking for a constant comes to. -/
def Answers (p : Program) (n : Nat) (s : Checker) (c : ConstId) : Prop :=
  ∃ s', (resolveWith p (evaluateWithin p n) c).run s = some (p.stableType c, s')
    ∧ Onward p none s s' ∧ s'.status.get? c = some (.resolved (p.stableType c))

/-! ## Names that are met while a constant is typed -/

/-- **A name that is met has the type that its constant settles on.** -/
theorem exists_referConstant (hp : p.Orderly) {n : Nat} (hs₀ : Underway p s₀ c)
    (hroom : unasked p s₀ * (p.source.exprs.size + 1) ≤ n)
    (hanswers : ∀ s target, unasked p s ≤ unasked p s₀ → Askable p n s target →
      Answers p n s target)
    (hdepends : p.source.DependsOn c target) (h : Onward p (some c) s₀ s) (e : ExprId) :
    ∃ s', (referConstant p (evaluateWithin p n) e target).run s = some (p.stableType target, s')
      ∧ Onward p none s s' ∧ s'.status.get? target ≠ none := by
  cases hstatus : s.status.get? target with
  | some status =>
    cases status with
    | resolved ty =>
      rw [← (h.faithful.resolved target ty hstatus).1]
      exact ⟨s, run_referConstant _ e hstatus, .refl h.faithful, by simp [hstatus]⟩
    | resolving =>
      -- the constant is under way, so that the name closes a cycle
      have hcycle : p.source.OnCycle target :=
        Relation.TransGen.tail' (hs₀.pending target (h.resolving target hstatus)) hdepends
      rw [stableType_doomed hp.acyclic hcycle.doomed]
      refine ⟨_, run_referConstant_resolving _ e hstatus, ?_, by simp [hstatus]⟩
      exact (Onward.refl h.faithful).aside rfl rfl rfl rfl
        ((Journal.muteDepth_report _ _).trans h.faithful.unmuted)
  | none =>
    -- nothing has asked for it: it is resolved now, one level deeper
    have hle : unasked p s ≤ unasked p s₀ := unasked_mono fun x hx => h.asked hx
    have hdepth : s.depth + unasked p s < p.source.constants.size := by
      rw [h.depth]
      exact (Nat.add_le_add_left hle _).trans_lt hs₀.depth
    have hdeep := hp.deep
    have haskable : Askable p n { s with depth := s.depth + 1 } target := {
      faithful := h.faithful.aside rfl rfl rfl h.faithful.unmuted
      exists_constant := hp.names.dependsOn hdepends
      new := hstatus
      pending := fun x hx => (hs₀.pending x (h.resolving x hx)).tail hdepends
      depth := by
        show s.depth + 1 + unasked p s ≤ _
        omega
      room := (Nat.mul_le_mul_right (p.source.exprs.size + 1) hle).trans hroom }
    obtain ⟨s', hrun, honward, hresolved⟩ :=
      hanswers { s with depth := s.depth + 1 } target hle haskable
    refine ⟨{ s' with depth := s'.depth - 1 }, run_referConstant_new e hstatus (by omega) hrun, ?_,
      by simp [hresolved]⟩
    refine ⟨?_, honward.kept, honward.resolving, honward.types, ?_⟩
    · exact honward.faithful.aside rfl rfl rfl honward.faithful.unmuted
    · show s'.depth - 1 = s.depth
      rw [honward.depth]
      rfl

/-! ## Typing a constant -/

/-- A state of the check beside one of a run that types the constant alone. They agree on what
belongs to the constant. Where an expression has a type, and it names a given constant, this has
been asked for. -/
structure Beside (p : Program) (c : ConstId) (constant : Constant) (d : ConstId)
    (s₀ s t : Checker) : Prop where
  onward : Onward p (some c) s₀ s
  agree : ∀ e, p.source.Within constant.value e → s.exprTypes.get? e = t.exprTypes.get? e
  asked : ∀ e ty, p.source.Within constant.value e → s.exprTypes.get? e = some ty →
    s.status.get? d ≠ none ∨ p.source.NamesOnly constant.scope (· ≠ d) e

/-- The check beside a run that types the constant alone. That a given constant has been asked for
is the excuse for not having seen that it is never named. -/
def beside (hp : p.Orderly) (hconstant : p.source.constants[c]? = some constant) (d : ConstId)
    (hs₀ : Underway p s₀ c) : Simulation p Discipline.free where
  rel := Beside p c constant d s₀
  scope := constant.scope
  inside := p.source.Within constant.value
  sound := fun _ => True
  seen := p.source.NamesOnly constant.scope (· ≠ d)
  excused := fun s => s.status.get? d ≠ none
  inside_part := p.within_value_part constant
  hereditary_sound := p.hereditary_true constant
  hereditary_seen := p.source.hereditary_namesOnly _ _
  excused_of := fun _ h => h.elim
  excused_aside := fun _ _ ha h => ha.status ▸ h
  excused_type := fun _ _ _ h => h
  missing := fun _ _ _ => trivial
  unnamed := fun _ _ _ _ _ _ _ => trivial
  wildcard := fun _ _ _ => trivial
  imported := fun _ _ _ _ _ _ _ _ _ => trivial
  same_type := fun _ _ e h he => h.agree e he
  kept_type := fun _ _ e ty h he hty => (h.asked e ty he hty).imp_right fun hseen =>
    ⟨fun _ => trivial, fun _ => trivial, fun _ => trivial, hseen⟩
  unmuted := fun _ _ h => Or.inr h.onward.faithful.unmuted
  rel_aside := by
    intro s t s' t' h hs ht _
    refine ⟨?_, fun e he => ?_, fun e ty he hty => ?_⟩
    · exact h.onward.aside hs.status hs.values hs.exprTypes hs.depth
        (hs.journal.muteDepth.trans h.onward.faithful.unmuted)
    · rw [hs.exprTypes, ht.exprTypes, h.agree e he]
    · rw [hs.exprTypes] at hty
      rw [hs.status]
      exact h.asked e ty he hty
  rel_type := by
    intro s t e ty h he hfits
    have hget : ∀ (u : Checker) e', (u.withType e ty).exprTypes.get? e'
        = if e' = e then some ty else u.exprTypes.get? e' := fun u e' => Table.get?_insert _ _ _ _
    refine ⟨?_, fun e' he' => ?_, fun e' ty' he' hty' => ?_⟩
    · refine h.onward.withType hp.separate hconstant ?_ he ty
      simp [hs₀.resolving]
    · rw [hget, hget, h.agree e' he']
    · rw [hget] at hty'
      split at hty'
      · rename_i heq
        subst heq
        exact hfits.imp_right fun hf => hf.seen
      · exact h.asked e' ty' he' hty'

/-- A name that is met gives both runs the same type, and its constant has then been asked for. -/
theorem refers_beside (hp : p.Orderly) (hconstant : p.source.constants[c]? = some constant)
    (d : ConstId) {k : Nat} (hs₀ : Underway p s₀ c)
    (hroom : unasked p s₀ * (p.source.exprs.size + 1) ≤ k)
    (hanswers : ∀ s target, unasked p s ≤ unasked p s₀ → Askable p k s target →
      Answers p k s target) {e : ExprId} (he : p.source.Within constant.value e) :
    (beside hp hconstant d hs₀).Refers (referConstant p (evaluateWithin p k))
      (supposing p.stableType) e := by
  rintro target href P s t (hrel : Beside p c constant d s₀ s t) -
  have hdepends := (Module.dependsOn_iff hp.acyclic hconstant).mpr ⟨e, he, href⟩
  obtain ⟨s', hrun, honward, htarget⟩ :=
    exists_referConstant hp hs₀ hroom hanswers hdepends hrel.onward e
  have hasked : s.status.get? c ≠ none := hrel.onward.asked (by simp [hs₀.resolving])
  have htypes := honward.types c constant hconstant (by simp) hasked
  refine ⟨p.stableType target, s', t, hrun, rfl, ⟨hrel.onward.trans honward, ?_, ?_⟩,
    honward.asked, ?_⟩
  · intro e' he'
    rw [htypes e' he', hrel.agree e' he']
  · intro e' ty he' hty
    rw [htypes e' he'] at hty
    exact (hrel.asked e' ty he' hty).imp_left honward.asked
  · by_cases heq : target = d
    · subst heq
      exact Or.inl htarget
    · exact Or.inr ⟨fun _ => trivial, fun _ => trivial, fun _ => trivial,
        Module.namesOnly_of_referred href heq⟩

/-- **A constant that is under way gets the type that it settles on.** If it depends on a given
constant, this has then been asked for. -/
theorem exists_typing_beside (hp : p.Orderly) {n : Nat} (hs₀ : Underway p s₀ c)
    (hconstant : p.source.constants[c]? = some constant)
    (hfresh : ∀ e, p.source.Within constant.value e → s₀.exprTypes.get? e = none)
    (hroom : (unasked p s₀ + 1) * (p.source.exprs.size + 1) ≤ n)
    (hanswers : ∀ k s target, unasked p s ≤ unasked p s₀ → Askable p k s target →
      Answers p k s target) (d : ConstId) :
    ∃ s, (typing p (evaluateWithin p n) constant).run s₀ = some (p.stableType c, s)
      ∧ Onward p (some c) s₀ s ∧ (p.source.DependsOn c d → s.status.get? d ≠ none) := by
  let M := beside hp hconstant d hs₀
  have hle := Module.height_le hp.acyclic constant.value
  have hheight : unasked p s₀ * (p.source.exprs.size + 1) + p.source.height constant.value
      < n := by
    rw [Nat.succ_mul] at hroom
    omega
  have hheight' : 0 + p.source.height constant.value < p.source.exprs.size + 1 := by omega
  have hevaluates : M.Evaluates (evaluateWithin p n)
      (evaluateUsing p (supposing p.stableType) (p.source.exprs.size + 1)) constant.value :=
    M.evaluates (fun k => referConstant p (evaluateWithin p k)) (fun _ => supposing p.stableType)
      hp.acyclic (fun _ => rfl) (fun _ => rfl)
      (fun k _ _ hk _ he => refers_beside hp hconstant d hs₀ hk (hanswers k) he) .refl
      hheight hheight'
  have hstart : M.rel s₀ .start := by
    refine ⟨.refl hs₀.faithful, hfresh, fun e ty he hty => ?_⟩
    rw [hfresh e he] at hty
    cases hty
  obtain ⟨ty, s, t, hrun, hrun', hrel, -, hsettled⟩ := M.triple_typing (P := True) hp.acyclic rfl
    .refl (fun ty _ => Discipline.everywhere_true ty) hevaluates s₀ .start hstart (Or.inr trivial)
  have hlt : c < p.source.constants.size := hs₀.faithful.bounded c (by simp [hs₀.resolving])
  -- the other run supposes the stable types, which one more round does not change
  have hty : p.stableType c = ty := by
    rw [← typeUnder_stableType hp.names hp.acyclic hlt]
    exact typeUnder_of_run hconstant hrun'
  refine ⟨s, hty ▸ hrun, hrel.onward, fun hdepends => ?_⟩
  -- were it not asked for, its name would never have been seen
  rcases hsettled with hasked | hsettled
  · exact hasked
  · have hnever := (Module.namesOnly_value_iff hp.acyclic hconstant).mp hsettled.seen
    exact absurd rfl (hnever d hdepends)

/-- All that the constant depends on has been asked for, since its typing is the same run whichever
constant is looked at. -/
theorem exists_typing_onDemand (hp : p.Orderly) {n : Nat} (hs₀ : Underway p s₀ c)
    (hconstant : p.source.constants[c]? = some constant)
    (hfresh : ∀ e, p.source.Within constant.value e → s₀.exprTypes.get? e = none)
    (hroom : (unasked p s₀ + 1) * (p.source.exprs.size + 1) ≤ n)
    (hanswers : ∀ k s target, unasked p s ≤ unasked p s₀ → Askable p k s target →
      Answers p k s target) :
    ∃ s, (typing p (evaluateWithin p n) constant).run s₀ = some (p.stableType c, s)
      ∧ Onward p (some c) s₀ s ∧ ∀ d, p.source.DependsOn c d → s.status.get? d ≠ none := by
  have htyping := exists_typing_beside hp hs₀ hconstant hfresh hroom hanswers
  obtain ⟨s, hrun, honward, -⟩ := htyping c
  refine ⟨s, hrun, honward, fun d hd => ?_⟩
  obtain ⟨s', hrun', -, hd'⟩ := htyping d
  rw [hrun] at hrun'
  cases hrun'
  exact hd' hd

/-! ## Asking for a constant -/

theorem asked_enter (s : Checker) (c : ConstId) (name : String) {x : ConstId}
    (hx : s.status.get? x ≠ none) : (s.enter c name).status.get? x ≠ none := by
  rw [status_enter]
  split
  · simp
  · exact hx

theorem Askable.unasked_enter_lt {n : Nat} (h : Askable p n s c) (name : String) :
    unasked p (s.enter c name) < unasked p s := by
  refine unasked_lt h.exists_constant h.new ?_ fun x hx => asked_enter s c name hx
  rw [status_enter, if_pos rfl]
  simp

/-- A constant that is entered is under way. -/
theorem Askable.enter {n : Nat} (h : Askable p n s c) (name : String) :
    Underway p (s.enter c name) c := by
  -- entering changes the status of `c` only, and `c` is not resolved by it
  have hne : ∀ {x status}, status ≠ .resolving →
      (s.enter c name).status.get? x = some status → x ≠ c ∧ s.status.get? x = some status := by
    intro x status hstatus hx
    rw [status_enter] at hx
    split at hx
    · cases hx
      exact absurd rfl hstatus
    · rename_i hne
      exact ⟨hne, hx⟩
  refine ⟨⟨h.faithful.unmuted, fun x hx => ?_, fun x ty hx => ?_, fun x hx => ?_,
    fun x other hother hx => ?_, fun x ty hx d hd => ?_⟩, ?_, fun x hx => ?_, ?_⟩
  · rw [status_enter] at hx
    split at hx
    · rename_i heq
      exact heq ▸ h.exists_constant
    · exact h.faithful.bounded x hx
  · exact h.faithful.resolved x ty (hne (by simp) hx).2
  · refine h.faithful.valueless x fun ty hty => hx ty ?_
    have hxc : x ≠ c := by
      rintro rfl
      rw [h.new] at hty
      cases hty
    rw [status_enter, if_neg hxc, hty]
  · rw [status_enter] at hx
    split at hx
    · cases hx
    · exact h.faithful.fresh x other hother hx
  · exact asked_enter s c name (h.faithful.closed x ty (hne (by simp) hx).2 d hd)
  · rw [status_enter, if_pos rfl]
  · rw [status_enter] at hx
    split at hx
    · rename_i heq
      rw [heq]
      exact .refl
    · exact h.pending x hx
  · have hlt := h.unasked_enter_lt name
    have hdepth := h.depth
    show s.depth + unasked p (s.enter c name) < _
    omega

/-- **A constant that is left is resolved**, with the type that it settles on. -/
theorem Askable.leave {n : Nat} (h : Askable p n s c) {name : String}
    (ht : Onward p (some c) (s.enter c name) t)
    (hasked : ∀ d, p.source.DependsOn c d → t.status.get? d ≠ none) :
    Onward p none s (t.leave c name (p.stableType c)) := by
  have hstatus := status_leave t c name (p.stableType c)
  have hvalues := values_leave t c name (p.stableType c)
  have hresolving : t.status.get? c = some .resolving :=
    ht.kept c .resolving ((status_enter s c name c).trans (if_pos rfl))
  have hvalueless : t.values.get? c = none :=
    ht.faithful.valueless c fun ty hty => by simp [hresolving] at hty
  have hne : ∀ {x}, s.status.get? x ≠ none → x ≠ c := by
    rintro x hx rfl
    exact hx h.new
  refine ⟨ht.faithful.settle (X := (· = c)) ?_ ?_ ?_ rfl ?_ ?_ ?_, fun x status hx => ?_,
    fun x hx => ?_, fun x other hother _ hx e he => ?_, ht.depth⟩
  · rintro x rfl
    rw [hstatus, if_pos rfl]
  · rintro x rfl
    rw [hvalues, if_pos rfl, hvalueless, Option.or_none]
  · intro x hx
    rw [hstatus, hvalues, if_neg hx, if_neg hx]
    exact ⟨rfl, rfl⟩
  · exact (Journal.grows_concluded _ _ _).muteDepth.trans ht.faithful.unmuted
  · rintro x rfl
    exact h.exists_constant
  · rintro x rfl d hd
    exact Or.inl (hasked d hd)
  · have hxc : x ≠ c := hne (by simp [hx])
    rw [hstatus, if_neg hxc]
    exact ht.kept x status ((status_enter s c name x).trans ((if_neg hxc).trans hx))
  · rw [hstatus] at hx
    split at hx
    · cases hx
    · rename_i hxc
      have hentered := ht.resolving x hx
      rwa [status_enter, if_neg hxc] at hentered
  · have hxc := hne hx
    exact ht.types x other hother (by simpa using hxc) (asked_enter s c name hx) e he

/-- **Whatever has been resolved before, asking for a constant gives the type that it settles on.**
The induction is on the number of constants that nothing has asked for. -/
theorem answers (hp : p.Orderly) {u n : Nat} (hu : unasked p s ≤ u) (h : Askable p n s c) :
    Answers p n s c := by
  induction u generalizing n s c with
  | zero =>
    -- the constant itself has not been asked for
    have hlt := h.unasked_enter_lt ""
    omega
  | succ u ih =>
    obtain ⟨constant, hconstant⟩ : ∃ constant, p.source.constants[c]? = some constant :=
      ⟨_, Array.getElem?_eq_getElem h.exists_constant⟩
    have hlt := h.unasked_enter_lt constant.name
    have hroom := (Nat.mul_le_mul_right (p.source.exprs.size + 1) hlt).trans h.room
    obtain ⟨t, hrun, honward, hasked⟩ := exists_typing_onDemand hp (h.enter constant.name) hconstant
      (h.faithful.fresh c constant hconstant h.new) hroom
      fun k s' target hle haskable => ih (by omega) haskable
    refine ⟨_, run_resolveWith h.new hconstant hrun, h.leave honward hasked, ?_⟩
    rw [status_leave, if_pos rfl]

end ConstNarrow
