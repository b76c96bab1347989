/-
**A constant depends on nothing but what it needs.**

Typing a constant alone reads four things of a program: what names are bound to, the modules that
are imported, two of the settings, and the expressions within the value. Two programs that have these
in common type the constant by one and the same computation, though one of them may have other
expressions elsewhere and a larger bound on every recursion. So the rounds that lead to the types
that constants settle on agree on a constant and on all that it needs. A check finds these types
whatever depth of resolution its settings allow, since it goes from group to group in an order in
which nothing is resolved on demand.
-/
import ConstNarrow.Proofs.DependencyOrder
import ConstNarrow.Proofs.OrderIndependence

set_option autoImplicit false

namespace ConstNarrow

open Checker

/-- Two programs agree on what names are bound to, on the imported modules, and on the settings but
for the depth of resolution. -/
structure Program.Alike (p p' : Program) : Prop where
  scopes : p'.source.scopes = p.source.scopes
  imports : p'.imports = p.imports
  pruneLiterals : p'.settings.pruneLiterals = p.settings.pruneLiterals
  ambiguity : p'.settings.ambiguity = p.settings.ambiguity

namespace Module

variable {m m' : Module}

/-- Two modules have an expression and everything within it in common. -/
def Shares (m m' : Module) (id : ExprId) : Prop := ∀ e, m.Within id e → m'.expr e = m.expr e

theorem Shares.part {a b : ExprId} (h : m.Shares m' a) (hpart : m.Part a b) : m.Shares m' b :=
  fun e he => h e (he.head hpart)

theorem Shares.part_right {a b : ExprId} (h : m.Shares m' a) (hpart : m.Part a b) :
    m'.Part a b := by
  rw [Part, h a .refl]
  exact hpart

/-- **Two recursions over expressions agree on what modules share**, if each goes as deep as the
expression nests in its own module. A step may use that they agree on the parts. -/
theorem Shares.recursion {α : Type} {f f' : Nat → ExprId → α} (hm : m.Acyclic) (hm' : m'.Acyclic)
    (hstep : ∀ n n' id, m.Shares m' id → (∀ e, m.Part id e → f' n' e = f n e) →
      f' (n' + 1) id = f (n + 1) id)
    {n n' : Nat} {id : ExprId} (h : m.Shares m' id) (hn : m.height id < n)
    (hn' : m'.height id < n') : f' n' id = f n id := by
  induction n generalizing n' id with
  | zero => exact absurd hn (Nat.not_lt_zero _)
  | succ n ih =>
    obtain ⟨n', rfl⟩ := Nat.exists_eq_succ_of_ne_zero (Nat.ne_zero_of_lt hn')
    refine hstep n n' id h fun e hpart => ?_
    have hlt := hpart.height_lt hm
    have hlt' := (h.part_right hpart).height_lt hm'
    exact ih (h.part hpart) (by omega) (by omega)

/-- Two modules declare a constant alike: in the same scope, with the same declared type, and with
a value that they have in common. -/
def DeclaresAlike (m m' : Module) (id : ConstId) : Prop :=
  ∃ constant constant', m.constants[id]? = some constant ∧ m'.constants[id]? = some constant'
    ∧ constant'.scope = constant.scope ∧ constant'.declared = constant.declared
    ∧ constant'.value = constant.value ∧ m.Shares m' constant.value

theorem scopesFrom_congr (h : m'.scopes = m.scopes) (n : Nat) :
    m'.scopesFrom n = m.scopesFrom n := by
  induction n with
  | zero => rfl
  | succ n ih =>
    funext id
    rw [scopesFrom, scopesFrom, h, ih]

theorem ancestors_congr (h : m'.scopes = m.scopes) : m'.ancestors = m.ancestors := by
  funext id
  rw [ancestors, ancestors, h, scopesFrom_congr h]

/-- What a name is bound to depends on the scopes alone. -/
theorem lookup_congr (h : m'.scopes = m.scopes) : m'.lookup = m.lookup := by
  funext scope name
  rw [lookup, lookup, ancestors_congr h]

theorem visibleNames_congr (h : m'.scopes = m.scopes) : m'.visibleNames = m.visibleNames := by
  funext scope
  rw [visibleNames, visibleNames, ancestors_congr h]

theorem fieldName?_congr {id : ExprId} (h : m'.expr id = m.expr id) :
    m'.fieldName? id = m.fieldName? id := by
  rw [fieldName?, fieldName?, h]

end Module

variable {p p' : Program} {id : ExprId}

namespace Checker

/-! ## Evaluation -/

section Evaluation

variable {eval eval' : Evaluator} {frame : Frame}

theorem evalItems_congr {items : List ListItem}
    (h : ∀ item ∈ items, eval' item.expr = eval item.expr) :
    evalItems eval' frame items = evalItems eval frame items := by
  induction items with
  | nil => rfl
  | cons item items ih =>
    obtain ⟨hitem, hitems⟩ := List.forall_mem_cons.mp h
    cases item with
    | member value =>
      have hvalue : eval' value = eval value := hitem
      rw [evalItems, evalItems, hvalue, ih hitems]
    | spread operand =>
      have hoperand : eval' operand = eval operand := hitem
      rw [evalItems, evalItems, hoperand, ih hitems]

theorem placeEach_congr {place place' : RecordField → Placement → CheckM Placement}
    {fields : List RecordField} (h : ∀ field ∈ fields, place' field = place field) :
    placeEach place' fields = placeEach place fields := by
  induction fields with
  | nil => rfl
  | cons field fields ih =>
    obtain ⟨hfield, hfields⟩ := List.forall_mem_cons.mp h
    funext placed
    rw [placeEach, placeEach, hfield, ih hfields]

/-- A field is placed alike if its expression is evaluated alike, and is the same where it gives the
name. -/
theorem placeWritten_congr {field : RecordField}
    (h : ∀ e ∈ field.exprs, p'.source.expr e = p.source.expr e ∧ eval' e = eval e) :
    placeWritten p' eval' frame field = placeWritten p eval frame field := by
  funext placed
  cases field with
  | named name value => rw [placeWritten, placeWritten, (h value (.head _)).2]
  | computed key value => rfl
  | reference value =>
    obtain ⟨hexpr, heval⟩ := h value (.head _)
    rw [placeWritten, placeWritten, heval, Module.fieldName?_congr hexpr]
  | spread operand => rw [placeWritten, placeWritten, (h operand (.head _)).2]

theorem placeComputed_congr {field : RecordField} (h : ∀ e ∈ field.exprs, eval' e = eval e) :
    placeComputed eval' frame field = placeComputed eval frame field := by
  funext placed
  cases field with
  | named name value => rfl
  | computed key value =>
    rw [placeComputed, placeComputed, h key (.head _), h value (.tail _ (.head _))]
  | reference value => rfl
  | spread operand => rfl

/-- A record is evaluated alike if the expressions of its fields are. -/
theorem evalRecord_congr {fields : List RecordField}
    (h : ∀ e ∈ fields.flatMap RecordField.exprs,
      p'.source.expr e = p.source.expr e ∧ eval' e = eval e) :
    evalRecord p' eval' fields frame = evalRecord p eval fields frame := by
  have hfield : ∀ field ∈ fields, ∀ e ∈ field.exprs,
      p'.source.expr e = p.source.expr e ∧ eval' e = eval e :=
    fun field hfield e he => h e (List.mem_flatMap.mpr ⟨field, hfield, he⟩)
  rw [evalRecord, evalRecord,
    placeEach_congr fun field hmem => placeWritten_congr (hfield field hmem),
    placeEach_congr fun field hmem => placeComputed_congr fun e he => (hfield field hmem e he).2]

/-- What is read to type an expression: the expression, its parts, and what is common to programs
that are alike. -/
theorem evalFresh_congr (h : p.Alike p') (refer : Referrer)
    (hexpr : p'.source.expr id = p.source.expr id)
    (hparts : ∀ e, p.source.Part id e → p'.source.expr e = p.source.expr e ∧ eval' e = eval e) :
    evalFresh p' refer eval' id frame = evalFresh p refer eval id frame := by
  unfold Module.Part at hparts
  rw [evalFresh, evalFresh, hexpr]
  cases hform : p.source.expr id with
  | missing => rfl
  | literal literal => simp only [evalLiteral, h.pruneLiterals]
  | reference source name =>
    cases source with
    | none => simp only [evalName, Module.lookup_congr h.scopes, Module.visibleNames_congr h.scopes]
    | some moduleName => simp only [evalImported, h.imports]
  | list items =>
    rw [hform] at hparts
    have hitems : ∀ item ∈ items, eval' item.expr = eval item.expr :=
      fun item hitem => (hparts _ (List.mem_map_of_mem hitem)).2
    simp only [evalList, evalItems_congr hitems]
  | record fields =>
    -- only here the form of a part is read, since a field may take its name from a reference
    rw [hform] at hparts
    exact evalRecord_congr hparts
  | binary op lhs rhs =>
    rw [hform] at hparts
    simp only [evalBinary, (hparts lhs (.head _)).2, (hparts rhs (.tail _ (.head _))).2]
  | unary op operand =>
    rw [hform] at hparts
    simp only [evalUnary, (hparts operand (.head _)).2]
  | group inner =>
    rw [hform] at hparts
    exact congrFun (hparts inner (.head _)).2 frame
  | unsupported form => rfl

/-- **An expression that two programs have in common is evaluated alike.** -/
theorem evaluateUsing_congr (h : p.Alike p') (hacyclic : p.source.Acyclic)
    (hacyclic' : p'.source.Acyclic) (refer : Referrer) {n n' : Nat}
    (hshares : p.source.Shares p'.source id) (hn : p.source.height id < n)
    (hn' : p'.source.height id < n') :
    evaluateUsing p' refer n' id = evaluateUsing p refer n id := by
  refine Module.Shares.recursion hacyclic hacyclic' (fun n n' id hshares hparts => ?_) hshares hn hn'
  funext frame
  rw [evaluateUsing, evaluateUsing, evalStep, evalStep, evalFresh_congr h refer (hshares id .refl)
    fun e hpart => ⟨hshares.part hpart e .refl, hparts e hpart⟩]

end Evaluation

/-! ## Commitment -/

section Commitment

variable {recurse recurse' : ExprId → Ty → CheckM Unit} {target : Ty}

theorem commitItems_congr {position? : Nat → Option Ty} {items : List ListItem}
    (h : ∀ item ∈ items, recurse' item.expr = recurse item.expr) (index : Nat) :
    commitItems recurse' id target position? index items
      = commitItems recurse id target position? index items := by
  induction items generalizing index with
  | nil => rfl
  | cons item items ih =>
    obtain ⟨hitem, hitems⟩ := List.forall_mem_cons.mp h
    cases item with
    | member value =>
      have hvalue : recurse' value = recurse value := hitem
      rw [commitItems, commitItems, hvalue, ih hitems]
    | spread operand =>
      simp only [commitItems, ih hitems]

theorem commitWritten_congr {value : ExprId} (h : recurse' value = recurse value)
    (fields : Fields none) (overwritten : List String) (name : Option String) :
    commitWritten recurse' id target fields overwritten name value
      = commitWritten recurse id target fields overwritten name value := by
  simp only [commitWritten, commitPlace, h]

theorem commitFields_congr {targetFields : Fields none} {overwritten : List String}
    {fields : List RecordField}
    (h : ∀ e ∈ fields.flatMap RecordField.exprs,
      p'.source.expr e = p.source.expr e ∧ recurse' e = recurse e) :
    commitFields p' recurse' id target targetFields overwritten fields
      = commitFields p recurse id target targetFields overwritten fields := by
  induction fields with
  | nil => rfl
  | cons field fields ih =>
    rw [List.flatMap_cons] at h
    obtain ⟨hfield, hfields⟩ := List.forall_mem_append.mp h
    cases field with
    | named name value =>
      simp only [commitFields, commitWritten_congr (hfield value (.head _)).2, ih hfields]
    | computed key value =>
      simp only [commitFields, commitPlace, (hfield value (.tail _ (.head _))).2, ih hfields]
    | reference value =>
      obtain ⟨hexpr, hrecurse⟩ := hfield value (.head _)
      simp only [commitFields, Module.fieldName?_congr hexpr, commitWritten_congr hrecurse,
        ih hfields]
    | spread operand => simp only [commitFields, ih hfields]

/-- One step of committing reads the expression, and the names of its fields. -/
theorem commitStep_congr (hexpr : p'.source.expr id = p.source.expr id)
    (hparts : ∀ e, p.source.Part id e →
      p'.source.expr e = p.source.expr e ∧ recurse' e = recurse e) :
    commitStep p' recurse' id target = commitStep p recurse id target := by
  unfold Module.Part at hparts
  rw [commitStep, commitStep, hexpr]
  cases hform : p.source.expr id with
  | missing => rfl
  | literal literal => rfl
  | reference source name => rfl
  | list items =>
    rw [hform] at hparts
    have hitems : ∀ item ∈ items, recurse' item.expr = recurse item.expr :=
      fun item hitem => (hparts _ (List.mem_map_of_mem hitem)).2
    simp only [commitItems_congr hitems]
  | record fields =>
    rw [hform] at hparts
    have hfields : ∀ e ∈ fields.flatMap RecordField.exprs,
        p'.source.expr e = p.source.expr e ∧ recurse' e = recurse e := hparts
    simp only [commitFields_congr hfields]
  | binary op lhs rhs =>
    rw [hform] at hparts
    simp only [(hparts lhs (.head _)).2, (hparts rhs (.tail _ (.head _))).2]
  | unary op operand =>
    rw [hform] at hparts
    simp only [(hparts operand (.head _)).2]
  | group inner =>
    rw [hform] at hparts
    simp only [(hparts inner (.head _)).2]
  | unsupported form => rfl

/-- **A type is committed alike to an expression that two programs have in common.** -/
theorem commitWithin_congr (hacyclic : p.source.Acyclic) (hacyclic' : p'.source.Acyclic)
    {n n' : Nat} (hshares : p.source.Shares p'.source id) (hn : p.source.height id < n)
    (hn' : p'.source.height id < n') : commitWithin p' n' id = commitWithin p n id := by
  refine Module.Shares.recursion hacyclic hacyclic' (fun n n' id hshares hparts => ?_) hshares hn hn'
  funext ty
  rw [commitWithin, commitWithin, commitStep_congr (hshares id .refl)
    fun e hpart => ⟨hshares.part hpart e .refl, hparts e hpart⟩]

end Commitment

/-! ## One constant -/

/-- Settling a value reads nothing of the module but the value. -/
theorem settle_congr (h : p.Alike p') (hacyclic : p.source.Acyclic) (hacyclic' : p'.source.Acyclic)
    {value : ExprId} (hshares : p.source.Shares p'.source value) :
    settle p' value = settle p value := by
  -- each program commits down to as many levels as it has expressions, which is enough in both
  have hcommit : commit p' value = commit p value := by
    have hle := Module.height_le hacyclic value
    have hle' := Module.height_le hacyclic' value
    exact commitWithin_congr hacyclic hacyclic' hshares (by omega) (by omega)
  funext declared inferred
  simp only [settle, anchored, validation, h.ambiguity, hcommit]

end Checker

/-- A constant that is declared alike is typed alike, given the same types for the others. -/
theorem typeUnder_alike (h : p.Alike p') (hacyclic : p.source.Acyclic)
    (hacyclic' : p'.source.Acyclic) {c : ConstId} (hc : p.source.DeclaresAlike p'.source c)
    (types : ConstId → Ty) : p'.typeUnder types c = p.typeUnder types c := by
  obtain ⟨constant, constant', hget, hget', hscope, hdeclared, hvalue, hshares⟩ := hc
  have heval : evaluateUsing p' (supposing types) (p'.source.exprs.size + 1) constant.value
      = evaluateUsing p (supposing types) (p.source.exprs.size + 1) constant.value := by
    have hle := Module.height_le hacyclic constant.value
    have hle' := Module.height_le hacyclic' constant.value
    exact evaluateUsing_congr h hacyclic hacyclic' _ hshares (by omega) (by omega)
  -- the name of the constant is not read
  have htyping : typingUnder p' types constant' = typingUnder p types constant := by
    rw [typingUnder, typingUnder, typing, typing, hscope, hdeclared, hvalue, heval,
      settle_congr h hacyclic hacyclic' hshares]
  simp only [Program.typeUnder, hget, hget', htyping]

/-- **Constants settle on the same type in two programs that agree on what they need.** -/
theorem stableType_alike (h : p.Alike p') (hnames : p.source.NamesExist)
    (hnames' : p'.source.NamesExist) (hacyclic : p.source.Acyclic) (hacyclic' : p'.source.Acyclic)
    {c : ConstId} (hc : ∀ d, p.source.Needs c d → p.source.DeclaresAlike p'.source d) :
    p'.stableType c = p.stableType c := by
  have hround : ∀ n d, p.source.Needs c d → p'.round n d = p.round n d := by
    intro n
    induction n with
    | zero => exact fun _ _ => rfl
    | succ n ih =>
      intro d hd
      calc p'.round (n + 1) d
          = p.typeUnder (p'.round n) d := typeUnder_alike h hacyclic hacyclic' (hc d hd) _
        _ = p.round (n + 1) d :=
          typeUnder_congr hacyclic fun target hdepends => ih target (hd.tail hdepends)
  obtain ⟨constant, constant', hget, hget', -⟩ := hc c .refl
  have hlt := (Array.getElem?_eq_some_iff.mp hget).1
  have hlt' := (Array.getElem?_eq_some_iff.mp hget').1
  -- one program may need more rounds than the other, and more than enough do no harm
  rw [← round_of_le hnames hacyclic hlt (le_max_left _ p'.source.constants.size),
    ← round_of_le hnames' hacyclic' hlt' (le_max_right p.source.constants.size _)]
  exact hround _ c .refl

/-! ## The depth of resolution -/

/-- The program with a depth of resolution that suffices for all its constants. -/
def Program.deepened (p : Program) : Program :=
  { p with settings := { p.settings with maxDepth := p.source.constants.size } }

theorem alike_deepened (p : Program) : p.Alike p.deepened := ⟨rfl, rfl, rfl, rfl⟩

/-- The strict run does not read the depth, and the check comes to the same state as it does. -/
theorem run_deepened (hnames : p.source.NamesExist) (hacyclic : p.source.Acyclic) :
    p.deepened.run = p.run := by
  have hheight := fun id => (hacyclic.founded id).height_lt_bound
  have heval : evaluateUsing p.deepened settledOnly (nestingBound p.deepened)
      = evaluateUsing p settledOnly (nestingBound p) :=
    funext fun id => evaluateUsing_congr (alike_deepened p) hacyclic hacyclic settledOnly
      (fun _ _ => rfl) (hheight id) (hheight id)
  have hsettle : settle p.deepened = settle p :=
    funext fun _ => settle_congr (alike_deepened p) hacyclic hacyclic fun _ _ => rfl
  -- the depth is read where a constant is resolved on demand, and a strict run has no such place
  have hresolve : resolveSettled p.deepened = resolveSettled p := by
    funext id
    rw [resolveSettled, resolveSettled, heval, resolveWith, resolveWith, hsettle]
    rfl
  obtain ⟨s, hrun, hstrict, -⟩ := exists_run hnames hacyclic (suits_free p)
  obtain ⟨t, hrun', hstrict', -⟩ := exists_run (p := p.deepened) hnames hacyclic (suits_free _)
  rw [hresolve] at hstrict'
  have hsame := Option.some.inj (hstrict'.symm.trans hstrict)
  rw [hrun, hrun', (Prod.mk.inj hsame).2]

/-- More depth does not change what a constant settles on. -/
theorem stableType_deepened (hnames : p.source.NamesExist) (hacyclic : p.source.Acyclic)
    {c : ConstId} (hc : c < p.source.constants.size) :
    p.deepened.stableType c = p.stableType c := by
  refine stableType_alike (alike_deepened p) hnames hnames hacyclic hacyclic fun d hd => ?_
  have hlt : d < p.source.constants.size := by
    rcases Relation.ReflTransGen.cases_tail hd with rfl | ⟨b, -, hdepends⟩
    · exact hc
    · exact hnames.dependsOn hdepends
  have hget := Array.getElem?_eq_getElem hlt
  exact ⟨_, _, hget, hget, rfl, rfl, rfl, fun _ _ => rfl⟩

/-- **A check finds the types that constants settle on**, whatever depth its settings allow. -/
theorem exists_check (hnames : p.source.NamesExist) (hacyclic : p.source.Acyclic)
    (hseparate : p.source.Separate) :
    ∃ r, p.check = some r ∧ ∀ c < p.source.constants.size,
      r.constTypes.get? c = some (p.stableType c)
        ∧ r.values.get? c = Value.ofTy? (p.stableType c) := by
  have hdeep : p.deepened.Orderly := ⟨hnames, hacyclic, hseparate, le_rfl⟩
  obtain ⟨s, hrun, honward, hall⟩ := (idle_start p.deepened).exists_resolveAll hdeep
  refine ⟨s.finish, ?_, fun c hc => ?_⟩
  · rw [Program.check, ← run_deepened hnames hacyclic, Program.run, hrun]
    rfl
  · obtain ⟨htype, hvalue⟩ := ((idle_start _).onward honward).finish hall c
    rw [if_pos (show c < p.deepened.source.constants.size from hc),
      stableType_deepened hnames hacyclic hc] at htype hvalue
    exact ⟨htype, hvalue⟩

/-! ## Two modules -/

/-- **The result for a constant is local.** Take two modules with the same scopes and bindings, in
which no expression contains itself or belongs to two constants, and check them with the same imports
and settings. If they declare a constant alike, and all constants that it needs, then both checks find
the same type and the same value for it, whatever else the modules declare. -/
theorem check_is_local (p p' : Program) (hscopes : p'.source.scopes = p.source.scopes)
    (himports : p'.imports = p.imports) (hsettings : p'.settings = p.settings)
    (hnames : p.source.NamesExist) (hnames' : p'.source.NamesExist)
    (hacyclic : p.source.Acyclic) (hacyclic' : p'.source.Acyclic)
    (hseparate : p.source.Separate) (hseparate' : p'.source.Separate) (c : ConstId)
    (hc : ∀ d, p.source.Needs c d → p.source.DeclaresAlike p'.source d) :
    ∃ r r' ty, p.check = some r ∧ p'.check = some r'
      ∧ r.constTypes.get? c = some ty ∧ r'.constTypes.get? c = some ty
      ∧ r.values.get? c = r'.values.get? c := by
  have halike : p.Alike p' := ⟨hscopes, himports, by rw [hsettings], by rw [hsettings]⟩
  obtain ⟨constant, constant', hget, hget', -⟩ := hc c .refl
  obtain ⟨r, hcheck, hr⟩ := exists_check hnames hacyclic hseparate
  obtain ⟨r', hcheck', hr'⟩ := exists_check hnames' hacyclic' hseparate'
  obtain ⟨htype, hvalue⟩ := hr c (Array.getElem?_eq_some_iff.mp hget).1
  obtain ⟨htype', hvalue'⟩ := hr' c (Array.getElem?_eq_some_iff.mp hget').1
  rw [stableType_alike halike hnames hnames' hacyclic hacyclic' hc] at htype' hvalue'
  exact ⟨r, r', _, hcheck, hcheck', htype, htype', hvalue.trans hvalue'.symm⟩

/-- Two constants, `a = 5` and `b = a + 1`, before a third one, `x`, that is given. -/
def neighbour (other : Expr) : Program where
  source := Module.empty
    |>.addExpr (.literal (.int "5"))
    |>.addConstant ⟨"a", Module.root, 0, none⟩
    |>.addExpr (.reference none "a")
    |>.addExpr (.literal (.int "1"))
    |>.addExpr (.binary (.arith .add) 1 2)
    |>.addConstant ⟨"b", Module.root, 3, some (.primitive .int)⟩
    |>.addExpr other
    |>.addConstant ⟨"x", Module.root, 4, none⟩
  imports := []
  settings := ⟨true, .error, 0⟩

theorem neighbour_namesExist (other : Expr) : (neighbour other).source.NamesExist :=
  Module.Built.namesExist (Module.Built.empty |>.expr _ |>.constant _ |>.expr _ |>.expr _
    |>.expr _ |>.constant _ |>.expr other |>.constant _)

/-- All that `b` needs is declared alike, whether `x` names `b` or itself. -/
theorem neighbour_declaresAlike (d : ConstId)
    (h : (neighbour (.reference none "b")).source.Needs 1 d) :
    (neighbour (.reference none "b")).source.DeclaresAlike
      (neighbour (.reference none "x")).source d := by
  have hclosed : ∀ a < 2, ∀ b ∈ (neighbour (.reference none "b")).source.dependencies a, b < 2 := by
    decide
  have hpart : ∀ e < 5, ∀ b ∈ ((neighbour (.reference none "b")).source.expr e).children, b ≤ e := by
    decide
  have hexpr : ∀ e < 4, (neighbour (.reference none "x")).source.expr e
      = (neighbour (.reference none "b")).source.expr e := by
    decide
  have hd : d < 2 := by
    induction h with
    | refl => decide
    | tail _ hdepends ih => exact hclosed _ ih _ hdepends
  have hwithin : ∀ {id e}, (neighbour (.reference none "b")).source.Within id e → e ≤ id := by
    intro id e he
    induction he with
    | refl => exact le_rfl
    | tail _ hb ih => exact (hpart _ hb.lt_size _ hb).trans ih
  rcases Nat.le_one_iff_eq_zero_or_eq_one.mp (Nat.le_of_lt_succ hd) with rfl | rfl <;>
    exact ⟨_, _, rfl, rfl, rfl, rfl, rfl,
      fun e he => hexpr e ((hwithin he).trans_lt (by decide))⟩

theorem neighbour_is_local : ∃ r r' ty, (neighbour (.reference none "b")).check = some r
    ∧ (neighbour (.reference none "x")).check = some r'
    ∧ r.constTypes.get? 1 = some ty ∧ r'.constTypes.get? 1 = some ty
    ∧ r.values.get? 1 = r'.values.get? 1 :=
  check_is_local (neighbour (.reference none "b")) (neighbour (.reference none "x")) rfl rfl rfl
    (neighbour_namesExist _) (neighbour_namesExist _)
    (Module.acyclic_of_lt (by decide)) (Module.acyclic_of_lt (by decide))
    (Module.separate_of_owner (fun e => (e + 2) / 3) (by decide) (by decide))
    (Module.separate_of_owner (fun e => (e + 2) / 3) (by decide) (by decide)) 1
    neighbour_declaresAlike

end ConstNarrow
