/-
**The error type is contagious**: where the evaluation of an expression comes upon the error type, at
any depth and also on the way through other constants, the expression gets the error type.

That a type is met during an evaluation cannot be seen from where the evaluation ends: a field of a
record may be replaced by a later one, and the type that was kept may be changed when a constant is
settled. So evaluation is watched: `evaluateAvoiding` is evaluation that gives up at the first
erroneous type of an expression to avoid. Where a type comes out well, the watched evaluation does
just what the other does.
-/
import ConstNarrow.Proofs.Locality
import ConstNarrow.Proofs.Reports
import ConstNarrow.Proofs.Termination

set_option autoImplicit false

namespace ConstNarrow

open Checker

namespace Checker

/-! ## Through other constants -/

/-- That a trail allows for what is reported when the type of a constant is settled. -/
def Trail.Settles (T : Trail) (p : Program) : Prop :=
  ∀ value declared inferred ty j k,
    (settling p value declared inferred).run j = (.ok ty, k) → T.rel j k

section Constants

variable {p : Program} {T : Trail} {eval eval' : Evaluator} {α : Type} {fine : Prop} {well : α → Prop}

theorem Follows.get {f f' : Checker → CheckM α} (h : ∀ s, Follows T fine (f s) (f' s) well) :
    Follows T fine (get >>= f) (get >>= f') well :=
  fun s => h s s

theorem follows_settle (hT : T.Settles p) (value : ExprId) (declared : Option Ty) (inferred : Ty) :
    Follows T (inferred.isError = false) (settle p value declared inferred)
      (settle p value declared inferred) (·.isError = false) := by
  intro s ty t hrun hty
  obtain ⟨hok, k, hsettling, hreports⟩ := exists_settling hrun hty
  exact ⟨hok, hrun, T.trans (hT _ _ _ _ _ _ hsettling) (T.of_sameReports hreports)⟩

theorem follows_resolveWith (hT : T.Settles p)
    (heval : ∀ e frame, Follows T True (eval e frame) (eval' e frame) (·.isError = false))
    (c : ConstId) :
    Follows T True (resolveWith p eval c) (resolveWith p eval' c) (·.isError = false) := by
  refine Follows.get fun s => ?_
  split
  · exact .pure fun _ => trivial
  · exact .pure fun _ => trivial
  · exact .pure fun _ => trivial
  · rename_i constant _ _
    refine .after_silent (.note _) fun _ => .after_silent (.modify fun _ => rfl) fun _ => ?_
    refine (heval constant.value _).bind fun inferred => ?_
    refine (follows_settle hT constant.value constant.declared inferred).bind fun ty => ?_
    -- what is said about the final type does not change it
    have hleave : Follows T (ty.isError = false)
        (do note (.resolved constant.name ty); setStatus c (.resolved ty); pure ty)
        (do note (.resolved constant.name ty); setStatus c (.resolved ty); pure ty)
        (·.isError = false) :=
      .after_silent (.note _) fun _ => .after_silent (.modify fun _ => rfl) fun _ => .pure id
    cases Value.ofTy? ty with
    | some value => exact .after_silent (.modify fun _ => rfl) fun _ => hleave
    | none =>
      dsimp only
      split
      · exact hleave
      · exact .after_silent (.note _) fun _ => hleave

theorem follows_referConstant (hT : T.Settles p)
    (heval : ∀ e frame, Follows T True (eval e frame) (eval' e frame) (·.isError = false))
    (e : ExprId) (target : ConstId) :
    Follows T True (referConstant p eval e target) (referConstant p eval' e target)
      (·.isError = false) := by
  refine Follows.get fun s => ?_
  dsimp only
  split
  · exact .pure fun _ => trivial
  · exact (Clean.fail e _).follows T
  · split
    · exact (Clean.fail e _).follows T
    · refine .after_silent (.modify fun _ => rfl) fun _ => ?_
      refine (follows_resolveWith hT heval target).bind fun ty => ?_
      exact .after_silent (.modify fun _ => rfl) fun _ => .pure id

end Constants

/-! ## Evaluation that is watched -/

/-- The type of an expression, unless an expression to avoid gets the error type on the way: then
evaluation is given up. -/
def evaluateAvoiding (p : Program) (avoided : ExprId → Bool) : Nat → Evaluator
  | 0, _, _ => exhausted
  | n + 1, id, frame => do
    let ty ← evalStep p (referConstant p (evaluateAvoiding p avoided n)) (evaluateAvoiding p avoided n)
      id frame
    if avoided id && ty.isError then exhausted else pure ty

/-- With nothing to avoid this is evaluation. -/
theorem evaluateAvoiding_nothing (p : Program) (n : Nat) :
    evaluateAvoiding p (fun _ => false) n = evaluateWithin p n := by
  induction n with
  | zero => rfl
  | succ n ih =>
    funext id frame
    rw [evaluateAvoiding, ih, evaluateWithin]
    exact bind_pure _

/-- **A type that is not erroneous is found without any erroneous type on the way.** -/
theorem follows_evaluateAvoiding {p : Program} {T : Trail} (hT : T.Settles p) (avoided : ExprId → Bool)
    (n : Nat) (id : ExprId) (frame : Frame) :
    Follows T True (evaluateWithin p n id frame) (evaluateAvoiding p avoided n id frame)
      (·.isError = false) := by
  induction n generalizing id frame with
  | zero => exact fun s a t hrun => (by cases hrun)
  | succ n ih =>
    have hstep : EvaluatesFollowing T frame.scope
        (evalStep p (referConstant p (evaluateWithin p n)) (evaluateWithin p n))
        (evalStep p (referConstant p (evaluateAvoiding p avoided n)) (evaluateAvoiding p avoided n)) id :=
      follows_evalStep (fun target _ => follows_referConstant hT ih id target)
        fun part _ frame _ => ih part frame
    rw [evaluateWithin, evaluateAvoiding, ← bind_pure (evalStep p _ _ id frame)]
    refine (hstep frame rfl).bind fun ty => ?_
    intro s a t hrun hgood
    cases hrun
    rw [hgood, Bool.and_false, if_neg Bool.false_ne_true]
    exact ⟨rfl, rfl, T.of_sameReports (.refl _)⟩

end Checker

/-! ## The error type -/

/-- A trail that allows for anything. -/
def Checker.Trail.any : Trail := ⟨fun _ _ => True, fun _ _ => trivial, fun _ => trivial⟩

/-- **The error type is contagious.** An evaluation during which some expression is given the error
type gives the error type, whatever has been evaluated before. And a constant that mentions one whose
final type is the error type is erroneous itself, and has no value, if no expression belongs to two
constants. -/
theorem error_is_contagious (p : Program) (hacyclic : p.source.Acyclic) :
    (∀ (avoided : ExprId → Bool) (id : ExprId) (frame : Frame) (s : Checker),
      (evaluateAvoiding p avoided (nestingBound p) id frame).run s = none →
      ∃ t, (evaluate p id frame).run s = some (.error, t))
    ∧ (p.source.NamesExist → p.source.Separate → ∃ r, p.check = some r
      ∧ ∀ (c target : ConstId) (constant : Constant) (e : ExprId) (name : String),
        p.source.constants[c]? = some constant → p.source.Within constant.value e →
        p.source.expr e = .reference none name →
        p.source.lookup constant.scope name = .bound (.constant target) →
        r.constTypes.get? target = some .error →
        r.constTypes.get? c = some .error ∧ r.values.get? c = none) := by
  constructor
  · intro avoided id frame s hgiven
    obtain ⟨ty, t, hrun, -⟩ := (alike_evaluate hacyclic s id).agree frame
    cases herror : ty.isError with
    | true => exact ⟨t, Ty.isError_iff.mp herror ▸ hrun⟩
    | false =>
      obtain ⟨-, hrun', -⟩ := follows_evaluateAvoiding (T := .any) (fun _ _ _ _ _ _ _ => trivial)
        avoided (nestingBound p) id frame s ty t hrun herror
      rw [hgiven] at hrun'
      cases hrun'
  · intro hnames hseparate
    obtain ⟨r, hcheck, hfinal⟩ := exists_check hnames hacyclic hseparate
    refine ⟨r, hcheck, fun c target constant e name hconstant he hexpr hlookup herror => ?_⟩
    have hdepends : p.source.DependsOn c target := by
      rw [Module.dependsOn_eq_mentions hacyclic]
      exact ⟨constant, e, name, hconstant, he, hexpr, hlookup⟩
    have htarget := (hfinal target (hnames.lookup hlookup)).1
    have hstable : p.stableType target = .error := Option.some.inj (htarget.symm.trans herror)
    have herroneous : p.stableType c = .error := by
      rw [← typeUnder_stableType hnames hacyclic hdepends.lt_size]
      exact typeUnder_eq_error hacyclic hdepends hstable
    obtain ⟨htype, hvalue⟩ := hfinal c hdepends.lt_size
    rw [herroneous] at htype hvalue
    exact ⟨htype, hvalue⟩

/-- A record with a field whose value names nothing, and which a computed field takes the place of;
and a list of this record: `a = {k: nothing, ["k"]: 1}`, `b = [a]`. -/
def replaced : Program where
  source := Module.empty
    |>.addExpr (.reference none "nothing")
    |>.addExpr (.literal (.string "k"))
    |>.addExpr (.literal (.int "1"))
    |>.addExpr (.record [.named "k" 0, .computed 1 2])
    |>.addConstant ⟨"a", Module.root, 3, none⟩
    |>.addExpr (.reference none "a")
    |>.addExpr (.list [.member 4])
    |>.addConstant ⟨"b", Module.root, 5, none⟩
  imports := []
  settings := ⟨true, .error, 5⟩

/-- The record is erroneous though the field is replaced, and so is the constant that lists it. -/
theorem replaced_is_erroneous :
    (∃ t, (evaluate replaced 3 ⟨none, Module.root⟩).run .start = some (.error, t))
      ∧ ∃ r, replaced.check = some r ∧ r.constTypes.get? 1 = some .error ∧ r.values.get? 1 = none := by
  have hacyclic : replaced.source.Acyclic := Module.acyclic_of_lt (by decide)
  have hnames : replaced.source.NamesExist := Module.Built.namesExist (Module.Built.empty
    |>.expr _ |>.expr _ |>.expr _ |>.expr _ |>.constant _ |>.expr _ |>.expr _ |>.constant _)
  have hseparate : replaced.source.Separate :=
    Module.separate_of_owner (fun e => if e < 4 then 0 else 1) (by decide) (by decide)
  obtain ⟨hevaluate, hconstants⟩ := error_is_contagious replaced hacyclic
  refine ⟨hevaluate (· == 0) 3 ⟨none, Module.root⟩ .start (by decide +kernel), ?_⟩
  obtain ⟨r, hcheck, hall⟩ := hconstants hnames hseparate
  have hrecord : (replaced.check.bind fun r => r.constTypes.get? 0).any Ty.isError = true := by
    decide +kernel
  rw [hcheck, Option.bind_some, Option.any_eq_true] at hrecord
  obtain ⟨ty, hty, herror⟩ := hrecord
  have hpart : replaced.source.Part 5 4 := show 4 ∈ (replaced.source.expr 5).children by decide
  exact ⟨r, hcheck, hall 1 0 ⟨"b", Module.root, 5, none⟩ 4 "a" rfl (.single hpart) rfl (by decide)
    (Ty.isError_iff.mp herror ▸ hty)⟩

end ConstNarrow
