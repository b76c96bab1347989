/-
**Evaluation ends**, whatever the constants refer to.

Evaluation goes from an expression to its parts, and at a name to the whole value of another
constant, so expressions do not get smaller on the way. What gets smaller is a pair: first the number
of constants that nothing has asked for, which falls when a constant is entered and never grows
while its value is typed, and then the height of the expression.

The bound on the nesting of evaluation is thus never met. To say so without counting, an evaluator
is cut down to the calls below a given pair; any other call is given up. One step of the evaluation,
with nothing but evaluation below itself for the nested calls, comes to the same as the evaluation.
This holds of every state, also of one that no check ever comes to.
-/
import Mathlib.Data.Prod.Lex
import ConstNarrow.Proofs.Footprint
import ConstNarrow.Proofs.Likeness
import ConstNarrow.Proofs.OrderIndependence

set_option autoImplicit false

namespace ConstNarrow

open Checker

/-! ## The height of an expression -/

namespace Module

/-- The longest way down from an expression to its parts, if it has no more steps than given. -/
def levelsWithin (m : Module) : Nat → ExprId → Nat
  | 0, _ => 0
  | n + 1, id => ((m.expr id).children.map fun part => m.levelsWithin n part + 1).foldr max 0

/-- The height of an expression: the number of steps on the longest way down to its parts. -/
def levels (m : Module) (id : ExprId) : Nat := m.levelsWithin m.exprs.size id

variable {m : Module}

theorem lt_foldr_max {l : List Nat} {n : Nat} (h : n + 1 ∈ l) : n < l.foldr max 0 := by
  induction l with
  | nil => cases h
  | cons first rest ih =>
    rw [List.foldr_cons]
    rcases List.mem_cons.mp h with rfl | h
    · omega
    · have := ih h
      omega

/-- Beyond the number of expressions from an expression downwards, nothing more is found. -/
theorem levelsWithin_succ (hm : m.Acyclic) {n : Nat} {id : ExprId} (hn : m.height id ≤ n) :
    m.levelsWithin (n + 1) id = m.levelsWithin n id := by
  induction n generalizing id with
  | zero =>
    -- what has no height is no expression of the module
    have hsize : m.exprs.size ≤ id := by
      by_contra hlt
      rw [height, if_pos (Nat.lt_of_not_le hlt)] at hn
      omega
    show ((m.expr id).children.map _).foldr max 0 = 0
    rw [expr_of_size_le hsize]
    rfl
  | succ n ih =>
    rw [levelsWithin, levelsWithin]
    refine congrArg (List.foldr max 0) (List.map_congr_left fun part hpart => ?_)
    have hlt := Part.height_lt hm hpart
    rw [ih (by omega)]

/-- **Parts are lower.** -/
theorem Part.levels_lt (hm : m.Acyclic) {a b : ExprId} (h : m.Part a b) :
    m.levels b < m.levels a := by
  have hsucc : m.levels a = m.levelsWithin (m.exprs.size + 1) a :=
    (levelsWithin_succ hm (height_le hm a)).symm
  rw [hsucc, levelsWithin]
  exact lt_foldr_max (List.mem_map.mpr ⟨b, h, rfl⟩)

end Module

/-! ## What is left to do -/

/-- What an evaluation has before it: the constants without a status, and the height of the
expression. Pairs are compared by the first part, and by the second where the first is the same. -/
noncomputable def remaining (p : Program) (s : Checker) (e : ExprId) : Nat ×ₗ Nat :=
  toLex (unasked p s, p.source.levels e)

open Classical in
/-- An evaluator cut down to the calls below a bound: any other call is given up. -/
noncomputable def Checker.below (p : Program) (bound : Nat ×ₗ Nat) (eval : Evaluator) : Evaluator :=
  fun e frame => do
    let s ← get
    if remaining p s e < bound then eval e frame else exhausted

variable {p : Program} {s₀ s : Checker} {c : ConstId} {e : ExprId} {eval eval' : Evaluator}

/-- Fewer constants are left, or as many and the expression is lower. -/
theorem remaining_lt {bound : Nat ×ₗ Nat}
    (h : unasked p s < bound.1 ∨ unasked p s ≤ bound.1 ∧ p.source.levels e < bound.2) :
    remaining p s e < bound := by
  refine Prod.Lex.lt_iff.mpr ?_
  rcases h with h | ⟨hle, hlt⟩
  · exact Or.inl h
  · rcases Nat.lt_or_eq_of_le hle with h | h
    · exact Or.inl h
    · exact Or.inr ⟨h, hlt⟩

theorem run_below {bound : Nat ×ₗ Nat} {frame : Frame} (h : remaining p s e < bound) :
    (below p bound eval e frame).run s = (eval e frame).run s := by
  unfold below
  rw [StateT.run_bind, StateT.run_get, pure_bind, if_pos h]

/-! ## Evaluators that cannot be told apart -/

/-- Two runs that are one, on the way from a state. -/
def onTheWay (p : Program) (scope : ScopeId) (s₀ : Checker) : Simulation p Discipline.free :=
  Likeness.exact.onTheWay .recalling p scope s₀

/-- That two evaluators both end, and cannot be told apart, on an expression and in any state on the
way from a given one. -/
def Alike (p : Program) (s₀ : Checker) (eval eval' : Evaluator) (e : ExprId) : Prop :=
  ∀ scope, (onTheWay p scope s₀).Evaluates eval eval' e

/-- That two computations both end in a state, with the same outcome, and forget nothing. -/
def Agree {α : Type} (s : Checker) (m m' : CheckM α) : Prop :=
  ∃ a t, m.run s = some (a, t) ∧ m'.run s = some (a, t) ∧ s.Recalls t

theorem Alike.agree (h : Alike p s eval eval' e) (frame : Frame) :
    Agree s (eval e frame) (eval' e frame) := by
  obtain ⟨ty, t, _, hrun, hrun', ⟨rfl, ht⟩, -⟩ :=
    h frame.scope frame rfl (P := True) s s ⟨rfl, fun _ hx => hx⟩ (Or.inr trivial)
  exact ⟨ty, t, hrun, hrun', ht⟩

/-- **An evaluator is not missed where it is cut off**, if no call from there reaches the bound. -/
theorem Alike.below {bound : Nat ×ₗ Nat} (h : Alike p s₀ eval eval' e)
    (hbound : unasked p s₀ < bound.1 ∨ unasked p s₀ ≤ bound.1 ∧ p.source.levels e < bound.2) :
    Alike p s₀ eval (below p bound eval') e := by
  rintro scope frame hscope P s _ ⟨rfl, hs⟩ hP
  have hmono : unasked p s ≤ unasked p s₀ := unasked_mono hs
  have hlt : remaining p s e < bound :=
    remaining_lt (hbound.imp (fun h => by omega) fun h => ⟨by omega, h.2⟩)
  obtain ⟨ty, t, t', hrun, hrun', hpost⟩ := h scope frame hscope s s ⟨rfl, hs⟩ hP
  exact ⟨ty, t, t', hrun, (run_below hlt).trans hrun', hpost⟩

/-- **Asking for a constant** comes to the same with two evaluators that cannot be told apart once a
constant more is asked for. -/
theorem agree_resolveWith (hacyclic : p.source.Acyclic)
    (h : ∀ s₁ e, unasked p s₁ < unasked p s → Alike p s₁ eval eval' e) (c : ConstId) :
    Agree s (resolveWith p eval c) (resolveWith p eval' c) := by
  obtain ⟨ty, t, _, hrun, hrun', rfl, ht⟩ :=
    Likeness.agree_resolveWith (L := .exact) (K := .recalling) (t := s) hacyclic trivial rfl h c
  exact ⟨ty, t, hrun, hrun', ht⟩

/-- **Two bounds on the nesting cannot be told apart**, if each has room for the constants that are
left and for the expression. -/
theorem alike_evaluateWithin (hacyclic : p.source.Acyclic) {n n' : Nat}
    (hn : unasked p s₀ * (p.source.exprs.size + 1) + p.source.height e < n)
    (hn' : unasked p s₀ * (p.source.exprs.size + 1) + p.source.height e < n') :
    Alike p s₀ (evaluateWithin p n) (evaluateWithin p n') e :=
  Likeness.exact.alike_evaluateWithin .recalling hacyclic hn hn'

theorem alike_evaluate (hacyclic : p.source.Acyclic) (s₀ : Checker) (e : ExprId) :
    Alike p s₀ (evaluate p) (evaluate p) e :=
  Likeness.exact.alike_evaluate .recalling hacyclic s₀ e

/-! ## The recursion -/

/-- **Evaluation is one step of itself, with nothing but evaluation below itself for the nested
calls.** A part is lower, and the value of a constant is evaluated with that constant marked. -/
theorem agree_evaluate (hacyclic : p.source.Acyclic) (s : Checker) (e : ExprId) (frame : Frame) :
    Agree s (evaluate p e frame)
      (evalStep p (referConstant p (below p (remaining p s e) (evaluate p)))
        (below p (remaining p s e) (evaluate p)) e frame) := by
  obtain ⟨n, hbound⟩ : ∃ n, nestingBound p = n + 1 := ⟨_, rfl⟩
  have heval : Alike p s (evaluate p)
      (evalStep p (referConstant p (below p (remaining p s e) (evaluate p)))
        (below p (remaining p s e) (evaluate p))) e := by
    intro scope
    rw [evaluate, hbound]
    refine (onTheWay p scope s).evaluates_evalStep trivial ?_ fun part hpart => ?_
    · refine Likeness.refers (L := .exact) (K := .recalling) hacyclic (fun s₁ e' hlt => ?_) scope e
      have hroom := room_lt_nestingBound hacyclic s₁ e'
      exact (alike_evaluateWithin hacyclic (by omega) (by omega)).below (Or.inl hlt)
    · have hroom := room_lt_nestingBound hacyclic s part
      exact (alike_evaluateWithin hacyclic (by omega) (by omega)).below
        (Or.inr ⟨le_rfl, hpart.levels_lt hacyclic⟩) scope
  exact heval.agree frame

/-- Asking for a constant evaluates only where fewer constants are left. -/
theorem agree_resolve (hacyclic : p.source.Acyclic) (s : Checker) (c : ConstId) :
    Agree s (resolve p c) (resolveWith p (below p (toLex (unasked p s, 0)) (evaluate p)) c) :=
  agree_resolveWith hacyclic
    (fun s₁ e hlt => (alike_evaluate hacyclic s₁ e).below (Or.inl hlt)) c

/-- That a computation ends, whatever the state. -/
def Total {α : Type} (m : CheckM α) : Prop := ∀ s, Ends m s fun _ _ => True

theorem Total.forM {α : Type} {f : α → CheckM Unit} (h : ∀ a, Total (f a)) (l : List α) :
    Total (l.forM f) := by
  induction l with
  | nil => exact fun _ => .pure trivial
  | cons a l ih => exact fun s => (h a s).bind fun _ t _ => ih t

theorem total_resolve (hacyclic : p.source.Acyclic) (c : ConstId) : Total (resolve p c) := by
  intro s
  obtain ⟨ty, t, hrun, -⟩ := agree_resolve hacyclic s c
  exact ⟨ty, t, hrun, trivial⟩

theorem total_refuseCycle (members : List ConstId) : Total (refuseCycle p members) := by
  intro s
  unfold Ends refuseCycle
  rw [StateT.run_bind, StateT.run_get, pure_bind]
  split
  · exact ⟨(), s, rfl, trivial⟩
  · rw [run_bind_some rfl, run_bind_some (run_forM_setStatus _ _ _)]
    split <;> exact ⟨(), _, rfl, trivial⟩

/-- A group is rejected, or its constants are resolved one by one. -/
theorem total_resolveAll (hacyclic : p.source.Acyclic) : Total (resolveAll p) := by
  have hgroup : ∀ group, Total (resolveGroup p (resolve p) group) := by
    intro group
    unfold resolveGroup
    split
    · exact total_refuseCycle group.members
    · exact .forM (fun id s => (total_resolve hacyclic id s).bind fun _ _ _ => .pure trivial) _
  exact fun s => (Ends.modify (Q := fun _ _ => True) trivial).bind fun _ t _ => Total.forM hgroup _ t

/-- **Evaluation, resolution and a check end in every state**, for every program whose expressions do
not contain themselves, whatever its constants refer to and however deep resolution may nest. An
evaluation comes to the same as one step of it that is given up as soon as a nested evaluation does
not have less before it, in constants without a status or else in height. In the same way, asking for
a constant evaluates only where fewer constants are left. -/
theorem evaluation_descends (p : Program) (hacyclic : p.source.Acyclic) (s : Checker) :
    (∀ e frame, ∃ ty t, (evaluate p e frame).run s = some (ty, t)
      ∧ (evalStep p (referConstant p (below p (remaining p s e) (evaluate p)))
          (below p (remaining p s e) (evaluate p)) e frame).run s = some (ty, t))
    ∧ (∀ c, ∃ ty t, (resolve p c).run s = some (ty, t)
      ∧ (resolveWith p (below p (toLex (unasked p s, 0)) (evaluate p)) c).run s = some (ty, t))
    ∧ ∃ t, (resolveAll p).run s = some ((), t) := by
  refine ⟨fun e frame => ?_, fun c => ?_, ?_⟩
  · obtain ⟨ty, t, hrun, hstep, -⟩ := agree_evaluate hacyclic s e frame
    exact ⟨ty, t, hrun, hstep⟩
  · obtain ⟨ty, t, hrun, hstep, -⟩ := agree_resolve hacyclic s c
    exact ⟨ty, t, hrun, hstep⟩
  · obtain ⟨_, t, hrun, -⟩ := total_resolveAll hacyclic s
    exact ⟨t, hrun⟩

/-- The sum of two constants that both lead back to it is evaluated, and so is the whole program,
while a third constant is under way and reports are dropped. -/
theorem crossing_descends :
    (∃ ty t, (evaluate crossing 2 ⟨none, Module.root⟩).run
        { Checker.start.enter 3 "d" with journal := Checker.start.journal.mute } = some (ty, t))
      ∧ ∃ t, (resolveAll crossing).run
        { Checker.start.enter 3 "d" with journal := Checker.start.journal.mute } = some ((), t) := by
  obtain ⟨hevaluate, -, hcheck⟩ :=
    evaluation_descends crossing crossing_orderly.acyclic
      { Checker.start.enter 3 "d" with journal := Checker.start.journal.mute }
  obtain ⟨ty, t, hrun, -⟩ := hevaluate 2 ⟨none, Module.root⟩
  exact ⟨⟨ty, t, hrun⟩, hcheck⟩

end ConstNarrow
