/-
**Two runs in states that are alike.**

Evaluation reads the status of constants, the types of expressions and the depth of resolution, and
nothing else. So it comes to the same from two states that agree in these: a `Likeness` is a relation
on states that says so, and that survives whatever evaluation and resolution do to both. Equality is
one, and it serves to compare two evaluators; another one lets the journals differ, so that what has
been reported makes no difference to the types.

What a run leaves behind is a second relation, between a state and a later one: an `Upkeep` survives
each step, and also a constant that is entered, typed and left. That nothing is forgotten which has
been asked for is the least that can be said; how much more there is to say is left open here.

Evaluation goes through constants that nothing has asked for, so the induction is on their number. It
is made once, for every likeness and every upkeep.
-/
import ConstNarrow.Proofs.OnDemand

set_option autoImplicit false

namespace ConstNarrow

open Checker

variable {p : Program} {s₀ s s' t : Checker} {c target : ConstId} {e : ExprId}
variable {eval eval' : Evaluator}

/-! ## Names and constants, case by case -/

/-- A constant that is under way is an error to those that ask for it. -/
theorem run_resolveWith_resolving {eval : Evaluator} (h : s.status.get? c = some .resolving) :
    (resolveWith p eval c).run s = some (.error, s) := by
  unfold resolveWith
  rw [StateT.run_bind, StateT.run_get, pure_bind]
  simp only [h]
  rfl

/-- So is one that does not exist. -/
theorem run_resolveWith_absent {eval : Evaluator} (h : s.status.get? c = none)
    (habsent : p.source.constants[c]? = none) :
    (resolveWith p eval c).run s = some (.error, s) := by
  unfold resolveWith
  rw [StateT.run_bind, StateT.run_get, pure_bind]
  simp only [h, habsent]
  rfl

/-- A name that is met too deep is an error. -/
theorem run_referConstant_deep (eval : Evaluator) (e : ExprId) (h : s.status.get? target = none)
    (hdepth : p.settings.maxDepth ≤ s.depth) :
    (referConstant p eval e target).run s
      = some (.error, { s with journal := s.journal.report (.error e (.resolutionTooDeep
          (p.source.constName target) p.settings.maxDepth)) }) := by
  unfold referConstant
  rw [StateT.run_bind, StateT.run_get, pure_bind]
  simp only [h]
  rw [if_pos hdepth]
  rfl

/-- Entering a constant leaves fewer that nothing has asked for. -/
theorem unasked_enter_lt {constant : Constant} (hnone : s.status.get? c = none)
    (hconstant : p.source.constants[c]? = some constant) :
    unasked p (s.enter c constant.name) < unasked p s := by
  refine unasked_lt (Array.getElem?_eq_some_iff.mp hconstant).1 hnone ?_
    fun x hx => asked_enter s c constant.name hx
  rw [status_enter, if_pos rfl]
  simp

/-- There is room for any expression in any state. -/
theorem room_lt_nestingBound (hacyclic : p.source.Acyclic) (s : Checker) (e : ExprId) :
    unasked p s * (p.source.exprs.size + 1) + p.source.height e + 1 < nestingBound p := by
  have hmul := Nat.mul_le_mul_right (p.source.exprs.size + 1) (unasked_le p s)
  have hheight := Module.height_le hacyclic e
  rw [nestingBound, Nat.succ_mul]
  omega

/-! ## What is kept up -/

/-- What has been asked for in one state has been asked for in the other. -/
def Checker.Recalls (s s' : Checker) : Prop :=
  ∀ x, s.status.get? x ≠ none → s'.status.get? x ≠ none

theorem Checker.Recalls.trans (h : s.Recalls s') (h' : s'.Recalls t) : s.Recalls t :=
  fun x hx => h' x (h x hx)

/-- What was asked for before a constant was entered has been asked for when it is left. -/
theorem Checker.Recalls.leave {name : String} (h : (s.enter c name).Recalls t) (ty : Ty) :
    s.Recalls (t.leave c name ty) := by
  intro x hx
  rw [status_leave]
  split
  · simp
  · exact h x (asked_enter s c name hx)

/-- **What is kept up** between a state and a later one, if a run starts from a state that is fit for
it: by every step, by a name that is followed one level deeper, and by a constant that nothing has
asked for before it is entered and left. -/
structure Checker.Upkeep where
  fit : Checker → Prop
  rel : Checker → Checker → Prop
  refl : ∀ {s}, fit s → rel s s
  fits : ∀ {s t}, rel s t → fit t
  trans : ∀ {s t u}, rel s t → rel t u → rel s u
  recalls : ∀ {s t}, rel s t → s.Recalls t
  aside : ∀ {s t}, fit s → Aside s t → rel s t
  report : ∀ {s}, fit s → ∀ d : Diagnostic, rel s { s with journal := s.journal.report d }
  withType : ∀ {s}, fit s → ∀ id ty, rel s (s.withType id ty)
  deeper : ∀ {s}, fit s → fit { s with depth := s.depth + 1 }
  nested : ∀ {s t}, rel { s with depth := s.depth + 1 } t → rel s { t with depth := t.depth - 1 }
  enter : ∀ {s}, fit s → ∀ c name, fit (s.enter c name)
  leave : ∀ {s t c name}, fit s → s.status.get? c = none → rel (s.enter c name) t →
    ∀ ty, rel s (t.leave c name ty)

/-- The least that is kept up, from any state: nothing that was asked for is forgotten. -/
def Checker.Upkeep.recalling : Upkeep where
  fit := fun _ => True
  rel := Recalls
  refl := fun _ _ hx => hx
  fits := fun _ => trivial
  trans := Recalls.trans
  recalls := fun h => h
  aside := fun _ h _ hx => h.status ▸ hx
  report := fun _ _ _ hx => hx
  withType := fun _ _ _ _ hx => hx
  deeper := fun _ => trivial
  nested := fun h => h
  enter := fun _ _ _ => trivial
  leave := fun _ _ => Recalls.leave

/-! ## Likeness -/

theorem Program.hereditary_true_in (p : Program) (scope : ScopeId) :
    p.source.Hereditary scope fun _ => True :=
  p.source.hereditary_true scope

/-- Which states of two runs are alike: they have the same constants, types and depth, and they stay
alike in whatever evaluation and resolution do to both. -/
structure Checker.Likeness where
  rel : Checker → Checker → Prop
  status : ∀ {s t}, rel s t → ∀ c, t.status.get? c = s.status.get? c
  types : ∀ {s t}, rel s t → ∀ e, t.exprTypes.get? e = s.exprTypes.get? e
  depth : ∀ {s t}, rel s t → t.depth = s.depth
  aside : ∀ {s t s' t'}, rel s t → Aside s s' → Aside t t' → (s = t → s' = t') → rel s' t'
  report : ∀ {s t}, rel s t → ∀ d : Diagnostic,
    rel { s with journal := s.journal.report d } { t with journal := t.journal.report d }
  withType : ∀ {s t}, rel s t → ∀ id ty, rel (s.withType id ty) (t.withType id ty)
  atDepth : ∀ {s t}, rel s t → ∀ n, rel { s with depth := n } { t with depth := n }
  enter : ∀ {s t}, rel s t → ∀ c name, rel (s.enter c name) (t.enter c name)
  leave : ∀ {s t}, rel s t → ∀ c name ty, rel (s.leave c name ty) (t.leave c name ty)

namespace Checker.Likeness

/-- States that are the same. -/
def exact : Likeness where
  rel := Eq
  status := fun h _ => h ▸ rfl
  types := fun h _ => h ▸ rfl
  depth := fun h => h ▸ rfl
  aside := fun h _ _ heq => heq h
  report := fun h _ => h ▸ rfl
  withType := fun h _ _ => h ▸ rfl
  atDepth := fun h _ => h ▸ rfl
  enter := fun h _ _ => h ▸ rfl
  leave := fun h _ _ _ => h ▸ rfl

variable (L : Likeness) (K : Upkeep)

/-- Two runs in states that are alike, on the way from a state. -/
def onTheWay (p : Program) (scope : ScopeId) (s₀ : Checker) : Simulation p Discipline.free where
  rel := fun s t => L.rel s t ∧ K.rel s₀ s
  scope := scope
  inside := fun _ => True
  sound := fun _ => True
  seen := fun _ => True
  excused := fun _ => False
  inside_part := fun _ _ _ _ => trivial
  hereditary_sound := p.hereditary_true_in scope
  hereditary_seen := p.hereditary_true_in scope
  excused_of := fun _ h => h
  excused_aside := fun _ _ _ h => h
  excused_type := fun _ _ _ h => h
  missing := fun _ _ _ => trivial
  unnamed := fun _ _ _ _ _ _ _ => trivial
  wildcard := fun _ _ _ => trivial
  imported := fun _ _ _ _ _ _ _ _ _ => trivial
  same_type := fun _ _ e h _ => (L.types h.1 e).symm
  kept_type := fun _ _ _ _ _ _ _ =>
    Or.inr ⟨fun _ => trivial, fun _ => trivial, fun _ => trivial, trivial⟩
  unmuted := fun _ _ _ => Or.inl trivial
  rel_aside := fun _ _ _ _ h hs ht heq =>
    ⟨L.aside h.1 hs ht heq, K.trans h.2 (K.aside (K.fits h.2) hs)⟩
  rel_type := fun _ _ id ty h _ _ =>
    ⟨L.withType h.1 id ty, K.trans h.2 (K.withType (K.fits h.2) id ty)⟩

/-- That two evaluators both end, and cannot be told apart, on an expression and in states that are
alike, on the way from a given one. -/
def Alike (p : Program) (s₀ : Checker) (eval eval' : Evaluator) (e : ExprId) : Prop :=
  ∀ scope, (L.onTheWay K p scope s₀).Evaluates eval eval' e

/-- That two computations both end, with the same result and in states that are alike, and keep up
what is to be kept up. -/
def Agree {α : Type} (s t : Checker) (m m' : CheckM α) : Prop :=
  ∃ a s' t', m.run s = some (a, s') ∧ m'.run t = some (a, t') ∧ L.rel s' t' ∧ K.rel s s'

variable {L K}

/-- Evaluators that cannot be told apart agree where they start. -/
theorem Alike.agree (h : L.Alike K p s eval eval' e) (hs : K.fit s) (hrel : L.rel s t)
    (frame : Frame) : L.Agree K s t (eval e frame) (eval' e frame) := by
  obtain ⟨ty, s', t', hrun, hrun', ⟨hrel', hs'⟩, -⟩ :=
    h frame.scope frame rfl (P := True) s t ⟨hrel, K.refl hs⟩ (Or.inr trivial)
  exact ⟨ty, s', t', hrun, hrun', hrel', hs'⟩

/-- **Asking for a constant** comes to the same with two evaluators that cannot be told apart once a
constant more is asked for. -/
theorem agree_resolveWith (hacyclic : p.source.Acyclic) (hs : K.fit s) (hrel : L.rel s t)
    (h : ∀ s₁ e, unasked p s₁ < unasked p s → L.Alike K p s₁ eval eval' e) (c : ConstId) :
    L.Agree K s t (resolveWith p eval c) (resolveWith p eval' c) := by
  have hstatus' := L.status hrel c
  cases hstatus : s.status.get? c with
  | some status =>
    rw [hstatus] at hstatus'
    cases status with
    | resolved ty =>
      exact ⟨ty, s, t, run_resolveWith_resolved hstatus, run_resolveWith_resolved hstatus', hrel,
        K.refl hs⟩
    | resolving =>
      exact ⟨.error, s, t, run_resolveWith_resolving hstatus, run_resolveWith_resolving hstatus', hrel,
        K.refl hs⟩
  | none =>
    rw [hstatus] at hstatus'
    cases hconstant : p.source.constants[c]? with
    | none =>
      exact ⟨.error, s, t, run_resolveWith_absent hstatus hconstant,
        run_resolveWith_absent hstatus' hconstant, hrel, K.refl hs⟩
    | some constant =>
      -- the constant is marked before its value is typed
      let s₁ := s.enter c constant.name
      have heval := h s₁ constant.value (unasked_enter_lt hstatus hconstant) constant.scope
      obtain ⟨ty, s₂, t₂, hrun, hrun', ⟨hrel₂, hs₂⟩, -⟩ := Simulation.triple_typing (P := True) _
        hacyclic rfl trivial (fun ty _ => Discipline.everywhere_true ty) heval s₁
        (t.enter c constant.name) ⟨L.enter hrel c constant.name, K.refl (K.enter hs c constant.name)⟩
        (Or.inr trivial)
      exact ⟨ty, s₂.leave c constant.name ty, t₂.leave c constant.name ty,
        run_resolveWith hstatus hconstant hrun, run_resolveWith hstatus' hconstant hrun',
        L.leave hrel₂ c constant.name ty, K.leave hs hstatus hs₂ ty⟩

/-- **A name** comes to the same with two such evaluators. -/
theorem agree_referConstant (hacyclic : p.source.Acyclic) (hs : K.fit s) (hrel : L.rel s t)
    (h : ∀ s₁ e, unasked p s₁ < unasked p s → L.Alike K p s₁ eval eval' e) (e : ExprId)
    (target : ConstId) :
    L.Agree K s t (referConstant p eval e target) (referConstant p eval' e target) := by
  have hstatus' := L.status hrel target
  cases hstatus : s.status.get? target with
  | some status =>
    rw [hstatus] at hstatus'
    cases status with
    | resolved ty =>
      exact ⟨ty, s, t, run_referConstant _ e hstatus, run_referConstant _ e hstatus', hrel, K.refl hs⟩
    | resolving =>
      exact ⟨.error, _, _, run_referConstant_resolving _ e hstatus,
        run_referConstant_resolving _ e hstatus', L.report hrel _, K.report hs _⟩
  | none =>
    rw [hstatus] at hstatus'
    by_cases hdepth : p.settings.maxDepth ≤ s.depth
    · exact ⟨.error, _, _, run_referConstant_deep _ e hstatus hdepth,
        run_referConstant_deep _ e hstatus' (L.depth hrel ▸ hdepth), L.report hrel _, K.report hs _⟩
    · have hdepth := Nat.lt_of_not_le hdepth
      have hdeeper := L.atDepth hrel (s.depth + 1)
      obtain ⟨ty, s₁, t₁, hrun, hrun', hrel₁, hs₁⟩ :=
        agree_resolveWith hacyclic (K.deeper hs) hdeeper h target
      refine ⟨ty, { s₁ with depth := s₁.depth - 1 }, { t₁ with depth := t₁.depth - 1 },
        run_referConstant_new e hstatus hdepth hrun, ?_, ?_, K.nested hs₁⟩
      · rw [← L.depth hrel] at hdepth hrun'
        exact run_referConstant_new e hstatus' hdepth hrun'
      · rw [L.depth hrel₁]
        exact L.atDepth hrel₁ _

/-- On the way from a state, no more constants are left than there. -/
theorem refers (hacyclic : p.source.Acyclic)
    (h : ∀ s₁ e, unasked p s₁ < unasked p s₀ → L.Alike K p s₁ eval eval' e) (scope : ScopeId)
    (e : ExprId) :
    (L.onTheWay K p scope s₀).Refers (referConstant p eval) (referConstant p eval') e := by
  rintro target - P s t ⟨hrel, hs⟩ -
  have hmono : unasked p s ≤ unasked p s₀ := unasked_mono (K.recalls hs)
  obtain ⟨ty, s₁, t₁, hrun, hrun', hrel₁, hs₁⟩ := agree_referConstant hacyclic (K.fits hs) hrel
    (fun s₁ e hlt => h s₁ e (hlt.trans_le hmono)) e target
  exact ⟨ty, s₁, t₁, hrun, hrun', ⟨hrel₁, K.trans hs hs₁⟩, fun h => h,
    Or.inr ⟨fun _ => trivial, fun _ => trivial, fun _ => trivial, trivial⟩⟩

/-- **Two bounds on the nesting cannot be told apart**, if each has room for the constants that are
left and for the expression. The induction is on the constants; that on the height of expressions is
the one of two evaluators in step. -/
theorem alike_evaluateWithin (L : Likeness) (K : Upkeep) (hacyclic : p.source.Acyclic) {n n' : Nat}
    (hn : unasked p s₀ * (p.source.exprs.size + 1) + p.source.height e < n)
    (hn' : unasked p s₀ * (p.source.exprs.size + 1) + p.source.height e < n') :
    L.Alike K p s₀ (evaluateWithin p n) (evaluateWithin p n') e := by
  induction hu : unasked p s₀ using Nat.strong_induction_on generalizing s₀ n n' e with
  | _ u ih =>
    subst hu
    intro scope
    refine (L.onTheWay K p scope s₀).evaluates (fun k => referConstant p (evaluateWithin p k))
      (fun k => referConstant p (evaluateWithin p k)) hacyclic (fun _ => rfl) (fun _ => rfl) ?_
      trivial hn hn'
    intro k k' id hk hk' _
    refine refers hacyclic (fun s₁ e hlt => ?_) scope id
    -- one constant less leaves room for any expression
    have hheight := Module.height_le hacyclic e
    have hmul := Nat.mul_le_mul_right (p.source.exprs.size + 1) (Nat.succ_le_of_lt hlt)
    rw [Nat.succ_mul] at hmul
    exact ih (unasked p s₁) hlt (by omega) (by omega) rfl

/-- So it is with the bound that evaluation has, which leaves room in any state. -/
theorem alike_evaluate (L : Likeness) (K : Upkeep) (hacyclic : p.source.Acyclic) (s₀ : Checker)
    (e : ExprId) : L.Alike K p s₀ (evaluate p) (evaluate p) e := by
  have hroom := room_lt_nestingBound hacyclic s₀ e
  exact L.alike_evaluateWithin K hacyclic (by omega) (by omega)

end Checker.Likeness

/-! ## States that differ in what was said -/

/-- Two states have the same constants, types and depth. What has been reported, and what nothing
depends on, may differ. -/
structure Checker.Besides (s t : Checker) : Prop where
  status : ∀ c, t.status.get? c = s.status.get? c
  types : ∀ e, t.exprTypes.get? e = s.exprTypes.get? e
  depth : t.depth = s.depth

theorem Checker.Besides.refl (s : Checker) : s.Besides s := ⟨fun _ => rfl, fun _ => rfl, rfl⟩

/-- That states differ at most in what was said is a likeness. -/
def Checker.Likeness.besides : Likeness where
  rel := Besides
  status := Besides.status
  types := Besides.types
  depth := Besides.depth
  aside := fun h hs ht _ =>
    ⟨fun c => by rw [ht.status, hs.status, h.status], fun e => by rw [ht.exprTypes, hs.exprTypes, h.types],
      by rw [ht.depth, hs.depth, h.depth]⟩
  report := fun h _ => ⟨h.status, h.types, h.depth⟩
  withType := fun h id ty =>
    ⟨h.status, fun e => by simp only [Checker.withType, Table.get?_insert, h.types], h.depth⟩
  atDepth := fun h _ => ⟨h.status, h.types, rfl⟩
  enter := fun h c name =>
    ⟨fun x => by rw [status_enter, status_enter, h.status], h.types, h.depth⟩
  leave := fun h c name ty =>
    ⟨fun x => by rw [status_leave, status_leave, h.status], h.types, h.depth⟩

/-- **What was said makes no difference to evaluation.** -/
theorem exists_evaluate_besides (hacyclic : p.source.Acyclic) (h : s.Besides t) {n n' : Nat}
    (hn : nestingBound p ≤ n + 1) (hn' : nestingBound p ≤ n' + 1) (e : ExprId) (frame : Frame) :
    ∃ ty s' t', (evaluateWithin p n e frame).run s = some (ty, s')
      ∧ (evaluateWithin p n' e frame).run t = some (ty, t') ∧ s'.Besides t' := by
  have hroom := room_lt_nestingBound hacyclic s e
  have halike : Likeness.besides.Alike .recalling p s (evaluateWithin p n) (evaluateWithin p n') e :=
    Likeness.besides.alike_evaluateWithin .recalling hacyclic (by omega) (by omega)
  obtain ⟨ty, s', t', hrun, hrun', hrel, -⟩ := halike.agree trivial h frame
  exact ⟨ty, s', t', hrun, hrun', hrel⟩

end ConstNarrow
