/-
**Pruning literals does not change what is found for a constant.**

A literal may lose the readings of kinds that do not occur in the declared type. Two checks of a
module with one constant are compared, one that keeps all readings and one that does not. If the
first gives the constant a type that is not erroneous, so does the second: it is the same type, and
the same is reported.

The kinds are collected over the declared type as a whole, and this is not all that a value may hold.
A record that is open without a rest type takes further fields as they are. A part of the declared
type may be erroneous, and takes anything. A field that a computed key writes over is not in the
result, so the declared type says nothing of it. And where the constant is erroneous without a report,
a literal in it may still be reported. In each of these cases the two checks differ.
-/
import ConstNarrow.Proofs.Reports

set_option autoImplicit false

namespace ConstNarrow

open Checker Validation

/-! ## Names of keys -/

/-- The name that a key has when it is evaluated on its own. -/
def Program.keyName? (p : Program) (scope : ScopeId) (key : ExprId) : Option String :=
  ((evaluate p key ⟨none, scope⟩).run .start).bind fun result => keyOf? result.1

/-- No constant is named in an expression. -/
def Module.NamesNone (m : Module) (scope : ScopeId) (id : ExprId) : Prop :=
  ∀ e, m.Within id e → m.referredConstant? scope e = none

/-- What stands for constants where none is named. -/
def unnamed : ConstId → Ty := fun _ => .error

section Inferring

variable {p : Program} {scope : ScopeId} {id : ExprId} {s t : Checker} {ty other : Ty}

theorem Module.Tree.within {m : Module} {root a : ExprId} (h : m.Tree root) (ha : m.Within root a) :
    m.Tree a := by
  induction ha with
  | refl => exact h
  | tail _ hpart ih => exact ih.part hpart

theorem sources_unnamed (himports : p.ImportsOnly (Ty.isConcrete Singleton.isProper)) :
    Sources p unnamed scope id where
  named := fun _ name _ _ => nameTy_isOperand (fun _ => .error) name
  imported := fun _ source name _ _ => (importedTy_isFirm himports source name).2

theorem Module.NamesNone.ready (h : p.source.NamesNone scope id)
    (hfresh : ∀ e, p.source.Within id e → s.exprTypes.get? e = none) : Ready p unnamed scope s id := by
  refine ⟨hfresh, fun e target he href => ?_⟩
  rw [h e he] at href
  cases href

/-- A key has the name that it has on its own. -/
theorem keyName?_of_held (htree : p.source.Tree id)
    (himports : p.ImportsOnly (Ty.isConcrete Singleton.isProper)) (hnone : p.source.NamesNone scope id)
    (h : Held (p.pruning false) unnamed scope s none id ty) : p.keyName? scope id = keyOf? ty := by
  obtain ⟨own, hevaluates⟩ := exists_evaluate htree (sources_unnamed himports) none
  obtain ⟨_, t, hrun, rfl, -, -, -, hheld⟩ := hevaluates .start (hnone.ready fun _ _ => rfl)
  have hown : Held (p.pruning p.settings.pruneLiterals) unnamed scope t none id _ := hheld
  rw [Program.keyName?, hrun, h.eq_of_unexpected hown]
  rfl

end Inferring

/-! ## Settling -/

section Settling

variable {p : Program} {constant : Constant} {s t t' : Checker} {ty other : Ty}

/-- What is asked of a constant, so that the kinds of its declared type are all that matter. -/
structure Program.Prunable (p : Program) (constant : Constant) : Prop where
  tree : p.source.Tree constant.value
  imports : p.ImportsOnly (Ty.isConcrete Singleton.isProper)
  noError : ∀ ty ∈ constant.declared, ty.everywhere Ty.isNoError = true
  notOpen : ∀ ty ∈ constant.declared, ty.everywhere Ty.isNotOpen = true
  once : ∀ e fields, p.source.Within constant.value e → p.source.expr e = .record fields →
    WritesOnce p.source (p.keyName? constant.scope) fields

theorem concur_settling_self (value : ExprId) (declared : Option Ty) (ty : Ty) :
    Concur (settling (p.pruning false) value declared ty) (settling (p.pruning true) value declared ty) := by
  cases declared with
  | none => exact concur_narrow ty
  | some expected =>
    have hsame : Ty.Same [] (expected.everywhere (Ty.holdsOnly []) = true) ty ty := Or.inl rfl
    exact takesAlike expected ty ty hsame

/-- **What is inferred with fewer readings is settled alike**, if what is inferred with all of them can
be settled. -/
theorem concur_settling (hp : p.Prunable constant)
    (hnone : p.source.NamesNone constant.scope constant.value)
    (h : Held (p.pruning false) unnamed constant.scope s constant.declared constant.value ty)
    (h' : Held (p.pruning true) unnamed constant.scope t constant.declared constant.value other)
    (hok : ty.isError = false) {final : Ty} {j k : Journal}
    (hfinal : (settling (p.pruning false) constant.value constant.declared ty).run j = (.ok final, k)) :
    other.isError = false ∧ Concur (settling (p.pruning false) constant.value constant.declared ty)
      (settling (p.pruning true) constant.value constant.declared other) := by
  have hsame (heq : other = ty) : other.isError = false
      ∧ Concur (settling (p.pruning false) constant.value constant.declared ty)
        (settling (p.pruning true) constant.value constant.declared other) := by
    rw [heq]
    exact ⟨hok, concur_settling_self _ _ ty⟩
  have hname : ∀ key ty, p.source.Within constant.value key →
      Held (p.pruning false) unnamed constant.scope s none key ty →
      p.keyName? constant.scope key = keyOf? ty := fun key ty hkey hheld =>
    keyName?_of_held (hp.tree.within hkey) hp.imports (fun e he => hnone e (hkey.trans he)) hheld
  cases hdeclared : constant.declared with
  | none =>
    rw [hdeclared] at h h' hsame
    exact hsame (h.eq_of_unexpected h')
  | some expected =>
    rw [hdeclared] at h h' hsame hfinal
    by_cases hall : expected.numericKinds = [] ∨ ∀ kind, kind ∈ expected.numericKinds
    · -- nothing is pruned
      exact hsame (h.eq_of_literals h' fun literal => literalTy_unpruned p literal hall true)
    · obtain ⟨hkinds, hmissing⟩ := not_or.mp hall
      obtain ⟨absent, habsent⟩ := not_forall.mp hmissing
      have hholds : expected.everywhere (Ty.holdsOnly expected.numericKinds) = true :=
        Ty.everywhere_holdsOnly habsent (hp.noError expected hdeclared) (hp.notOpen expected hdeclared)
          fun kind hkind => List.mem_eraseDups.mpr hkind
      rcases h.prunedTo hkinds hname hp.once rfl h' hok with hprunes | hunfit
      · exact ⟨hprunes.isError_eq.trans hok, takesAlike expected ty other (Or.inr ⟨hholds, hprunes⟩)⟩
      · exact absurd hfinal (validate_unfit _ hholds hunfit)

/-- The value of a constant is evaluated before its type is settled. -/
theorem exists_inferred {prune : Bool} (hp : p.Prunable constant)
    (hnone : p.source.NamesNone constant.scope constant.value)
    (hfresh : ∀ e, p.source.Within constant.value e → s.exprTypes.get? e = none)
    (h : (typing (p.pruning prune) (evaluate (p.pruning prune)) constant).run s = some (ty, t)) :
    ∃ inferred u,
      Held (p.pruning prune) unnamed constant.scope u constant.declared constant.value inferred
        ∧ (inferred.isError = false → s.journal.SameReports u.journal)
        ∧ (settle (p.pruning prune) constant.value constant.declared inferred).run u = some (ty, t) := by
  have htree : (p.pruning prune).source.Tree constant.value := hp.tree
  have hsources : Sources (p.pruning prune) unnamed constant.scope constant.value :=
    sources_unnamed hp.imports
  have hready : Ready (p.pruning prune) unnamed constant.scope s constant.value :=
    Module.NamesNone.ready hnone hfresh
  obtain ⟨inferred, hevaluates⟩ := exists_evaluate htree hsources constant.declared
  obtain ⟨_, u, hrun, rfl, -, -, -, hheld⟩ := hevaluates s hready
  have hclean : EvaluatesClean constant.scope (evaluate (p.pruning prune)) constant.value :=
    clean_evaluateWithin _ hnone
  rw [typing, run_bind_some hrun] at h
  exact ⟨_, u, hheld, fun hok => (hclean _ rfl s _ u hrun hok).2, h⟩

/-- **A constant is typed alike**, with all readings and with fewer. -/
theorem typing_pruned (hp : p.Prunable constant)
    (hnone : p.source.NamesNone constant.scope constant.value)
    (hfresh : ∀ e, p.source.Within constant.value e → s.exprTypes.get? e = none)
    (h : (typing (p.pruning false) (evaluate (p.pruning false)) constant).run s = some (ty, t))
    (h' : (typing (p.pruning true) (evaluate (p.pruning true)) constant).run s = some (other, t'))
    (hty : ty.isError = false) : other = ty ∧ t.journal.SameReports t'.journal := by
  obtain ⟨inferred, u, hheld, hclean, hsettle⟩ := exists_inferred hp hnone hfresh h
  obtain ⟨inferred', u', hheld', hclean', hsettle'⟩ := exists_inferred hp hnone hfresh h'
  obtain ⟨hok, k, hfinal, hreports⟩ := exists_settling hsettle hty
  obtain ⟨hok', hconcur⟩ := concur_settling hp hnone hheld hheld' hok hfinal
  -- both validations start with the reports from before the evaluation
  have hbefore : u.journal.SameReports u'.journal := (hclean hok).symm.trans (hclean' hok')
  obtain ⟨hresult, hafter⟩ := hconcur u.journal u'.journal hbefore
  rcases hfinal' : (settling (p.pruning true) constant.value constant.declared inferred').run u'.journal
    with ⟨result, k'⟩
  rw [hfinal, hfinal'] at hresult hafter
  cases hresult
  obtain ⟨rfl, hreports'⟩ := eq_of_settle_ok hok' hfinal' hsettle'
  exact ⟨rfl, (hreports.symm.trans hafter).trans hreports'⟩

end Settling

/-! ## A module with one constant -/

section Single

variable {p : Program} {constant : Constant} {group : ConstGroup}

/-- There is one constant in a module, which makes up the only group. -/
structure Module.Sole (m : Module) (constant : Constant) (group : ConstGroup) : Prop where
  one : m.constants = #[constant]
  groups : m.groups = [group]
  members : group.members = [0]

theorem Module.Sole.get? {m : Module} (h : m.Sole constant group) :
    m.constants[0]? = some constant := by
  rw [h.one]
  rfl

theorem Module.Sole.mem {m : Module} (h : m.Sole constant group) : 0 ∈ group.members := by
  rw [h.members]
  exact List.mem_singleton_self 0

theorem Module.exists_sole {m : Module} (hnames : m.NamesExist) (hone : m.constants = #[constant]) :
    ∃ group, m.Sole constant group := by
  have hperm := Module.perm_flatMap_members hnames
  have hids : m.constIds = [0] := by
    rw [Module.constIds, hone]
    rfl
  rw [hids, List.perm_singleton] at hperm
  have hne : ∀ group ∈ m.groups, group.members ≠ [] := fun _ h => Module.members_ne_nil hnames h
  cases hgroups : m.groups with
  | nil =>
    rw [hgroups] at hperm
    cases hperm
  | cons first rest =>
    rw [hgroups] at hperm hne
    cases rest with
    | nil => exact ⟨first, hone, hgroups, by simpa using hperm⟩
    | cons second rest =>
      -- two groups would hold two constants
      have hfirst := List.length_pos_of_ne_nil (hne first List.mem_cons_self)
      have hsecond := List.length_pos_of_ne_nil (hne second (List.mem_cons_of_mem _ List.mem_cons_self))
      have hlength := congrArg List.length hperm
      simp only [List.flatMap_cons, List.length_append, List.length_singleton] at hlength
      omega

theorem run_of_typing (hsole : p.source.Sole constant group) (hcyclic : group.isCyclic = false)
    {ty : Ty} {t : Checker}
    (h : (typing p (evaluate p) constant).run ((Checker.begin p).enter 0 constant.name) = some (ty, t)) :
    p.run = some (t.leave 0 constant.name ty) := by
  have hstatus : (Checker.begin p).status.get? 0 = none := rfl
  refine Program.run_eq ?_
  rw [hsole.groups]
  exact run_bind_some
    (run_resolveGroup_single hcyclic hsole.members (run_resolveWith hstatus hsole.get? h))

/-- A constant on a cycle is erroneous. -/
theorem run_of_cyclic (hnames : p.source.NamesExist) (hsole : p.source.Sole constant group)
    (hcyclic : group.isCyclic = true) :
    ∃ s, p.run = some s ∧ s.status.get? 0 = some (.resolved .error) := by
  have hgroup : group ∈ p.source.groups := by rw [hsole.groups]; exact List.mem_singleton_self _
  obtain ⟨first, others, hfirst⟩ := Module.exists_first_member hnames hgroup
  have hlt := fun id => Module.lt_size_of_mem_group hnames hgroup (a := id)
  have hrefuse := run_refuseCycle (s := .begin p) hlt hfirst fun _ _ => rfl
  let names := group.members.map p.source.constName
  refine ⟨(Checker.begin p).reject group.members names first.value, Program.run_eq ?_,
    (get?_foldl_insert group.members _ (Checker.begin p).status 0).trans (if_pos hsole.mem)⟩
  rw [hsole.groups]
  exact run_bind_some (by rw [resolveGroup, if_pos hcyclic, hrefuse])

/-- The only constant of a module names none, unless it names itself. -/
theorem Module.Sole.namesNone (hsole : p.source.Sole constant group) (hnames : p.source.NamesExist)
    (htree : p.source.Tree constant.value) (hcyclic : group.isCyclic = false) :
    p.source.NamesNone constant.scope constant.value := by
  intro e he
  cases href : p.source.referredConstant? constant.scope e with
  | none => rfl
  | some target =>
    -- there is no earlier group to which another constant could belong
    have hdepends := (htree.founded.dependsOn_iff hsole.get?).mpr ⟨e, he, href⟩
    have hfirst : p.source.groups = [] ++ group :: [] := hsole.groups
    obtain ⟨_, hdone, -⟩ := exists_done_of_dependsOn hnames hfirst hcyclic hsole.mem hdepends
    cases hdone

theorem exists_run_single {prune : Bool} (hp : p.Prunable constant)
    (hnone : p.source.NamesNone constant.scope constant.value)
    (hsole : p.source.Sole constant group) (hcyclic : group.isCyclic = false) :
    ∃ ty t, (typing (p.pruning prune) (evaluate (p.pruning prune)) constant).run
        ((Checker.begin p).enter 0 constant.name) = some (ty, t)
      ∧ (p.pruning prune).run = some (t.leave 0 constant.name ty) := by
  have htree : (p.pruning prune).source.Tree constant.value := hp.tree
  have hsources : Sources (p.pruning prune) unnamed constant.scope constant.value :=
    sources_unnamed hp.imports
  have hready : Ready (p.pruning prune) unnamed constant.scope ((Checker.begin p).enter 0 constant.name)
      constant.value := Module.NamesNone.ready hnone fun _ _ => rfl
  have hdeclared : ∀ ty ∈ constant.declared,
      ty.everywhere (fun part => true || part.isNoError) = true :=
    fun ty _ => Discipline.everywhere_true ty
  obtain ⟨ty, t, hrun, -⟩ := ends_typing htree hsources hready hdeclared
  exact ⟨ty, t, hrun, run_of_typing (p := p.pruning prune) hsole hcyclic hrun⟩

theorem Journal.sameReports_concluded (j : Journal) (name : String) (ty : Ty) :
    j.SameReports (j.concluded name ty) := by
  unfold Journal.concluded
  split
  · exact .note _ _
  · exact (Journal.SameReports.note _ _).trans (.note _ _)

/-- **Pruning literals does not change what is found.** A module with one constant is checked twice,
with all readings of its literals and with those of the declared kinds. Both checks come to an end. If
the constant has a type that is not erroneous in the first, it has the same type in the second, and
the same is reported. -/
theorem pruning_keeps_findings (p : Program) (constant : Constant)
    (hone : p.source.constants = #[constant]) (hnames : p.source.NamesExist)
    (hp : p.Prunable constant) :
    ∃ r r' ty, (p.pruning false).check = some r ∧ (p.pruning true).check = some r'
      ∧ r.constTypes.get? 0 = some ty
      ∧ (ty ≠ .error → r'.constTypes.get? 0 = some ty ∧ r'.diagnostics = r.diagnostics) := by
  obtain ⟨group, hsole⟩ := Module.exists_sole hnames hone
  cases hcyclic : group.isCyclic with
  | true =>
    obtain ⟨s, hrun, hstatus⟩ := run_of_cyclic (p := p.pruning false) hnames hsole hcyclic
    obtain ⟨s', hrun', -⟩ := run_of_cyclic (p := p.pruning true) hnames hsole hcyclic
    exact ⟨s.finish, s'.finish, .error, by rw [Program.check, hrun]; rfl,
      by rw [Program.check, hrun']; rfl, constTypes_get? s hstatus, fun hne => absurd rfl hne⟩
  | false =>
    have hnone := hsole.namesNone hnames hp.tree hcyclic
    obtain ⟨ty, t, htyping, hrun⟩ : ∃ ty t, _ ∧ (p.pruning false).run = _ :=
      exists_run_single hp hnone hsole hcyclic
    obtain ⟨other, t', htyping', hrun'⟩ : ∃ ty t, _ ∧ (p.pruning true).run = _ :=
      exists_run_single hp hnone hsole hcyclic
    refine ⟨_, _, ty, by rw [Program.check, hrun]; rfl, by rw [Program.check, hrun']; rfl,
      constTypes_get? _ ((status_leave t 0 constant.name ty 0).trans (if_pos rfl)), fun hne => ?_⟩
    have hok : ty.isError = false := Bool.eq_false_iff.mpr fun h => hne (Ty.isError_iff.mp h)
    obtain ⟨rfl, hreports⟩ := typing_pruned hp hnone (fun _ _ => rfl) htyping htyping' hok
    refine ⟨constTypes_get? _ ((status_leave t' 0 constant.name _ 0).trans (if_pos rfl)), ?_⟩
    have hleft := ((t.journal.sameReports_concluded constant.name other).symm.trans hreports).trans
      (t'.journal.sameReports_concluded constant.name other)
    exact congrArg Array.toList hleft.diagnostics

end Single

/-! ## What is pruned, and what is lost -/

/-- `x : map<decimal|string> = {a: 1 + 2, ["b"]: 3}`. -/
def amounts : Program where
  source := Module.empty
    |>.addExpr (.literal (.int "1"))
    |>.addExpr (.literal (.int "2"))
    |>.addExpr (.binary (.arith .add) 0 1)
    |>.addExpr (.literal (.string "b"))
    |>.addExpr (.literal (.int "3"))
    |>.addExpr (.record [.named "a" 2, .computed 3 4])
    |>.addConstant ⟨"x", Module.root, 5,
      some (.map (.union [.primitive .decimal, .primitive .string]))⟩
  imports := []
  settings := .default

theorem amounts_prunable : amounts.Prunable ⟨"x", Module.root, 5,
    some (.map (.union [.primitive .decimal, .primitive .string]))⟩ where
  tree := (Module.forest_of_nodup (by decide)).tree (Array.mem_of_getElem? (i := 0) rfl)
  imports := fun _ h => (by cases h)
  noError := by decide
  notOpen := by decide
  once := fun e fields _ hexpr => by
    have honly : fields = [.named "a" 2, .computed 3 4] := by
      refine Module.forall_expr (m := amounts.source)
        (P := fun other => other = .record fields → fields = [.named "a" 2, .computed 3 4]) ?_
        (fun h => (by cases h)) e hexpr
      simp [amounts, Module.addExpr, Module.addConstant, Module.define, Module.empty, eq_comm]
    rw [honly, WritesOnce]
    decide +kernel

theorem amounts_fine : (amounts.pruning false).check.map (fun r =>
    ((r.constTypes.get? 0).map Ty.isError, r.diagnostics.isEmpty)) = some (some false, true) := by
  decide +kernel

/-- The integers and the floating-point numbers among the readings are dropped, and nothing comes of
it. -/
theorem amounts_keep_findings : ∃ r r', (amounts.pruning false).check = some r
    ∧ (amounts.pruning true).check = some r' ∧ r'.diagnostics = []
    ∧ ∃ ty, ty ≠ .error ∧ r.constTypes.get? 0 = some ty ∧ r'.constTypes.get? 0 = some ty := by
  obtain ⟨r, r', ty, hcheck, hcheck', hty, hkept⟩ := pruning_keeps_findings amounts _ rfl
    (Module.Built.namesExist (Module.Built.empty |>.expr _ |>.expr _ |>.expr _ |>.expr _ |>.expr _
      |>.expr _ |>.constant _)) amounts_prunable
  have hfine := amounts_fine
  rw [hcheck, Option.map_some, hty, Option.map_some, Option.some.injEq, Prod.mk.injEq] at hfine
  have hne : ty ≠ .error := by
    rintro rfl
    cases hfine.1
  obtain ⟨hty', hreports⟩ := hkept hne
  exact ⟨r, r', hcheck, hcheck', hreports.trans (List.isEmpty_iff.mp hfine.2), ty, hne, hty, hty'⟩

/-- What is found with all readings is not found with fewer: no problem is reported with all of them,
and with fewer one is, or the type of the constant is another. -/
def Program.MissesReadings (p : Program) : Prop :=
  ∃ r r' ty, (p.pruning false).check = some r ∧ (p.pruning true).check = some r'
    ∧ r.diagnostics = [] ∧ r.constTypes.get? 0 = some ty
    ∧ ¬ (r'.diagnostics = [] ∧ r'.constTypes.get? 0 = some ty)

/-- It is enough to evaluate both checks: a property that tells the type apart will do. -/
theorem Program.missesReadings_of {p : Program} (f : Ty → Bool)
    (h : (p.pruning false).check.map (fun r => (r.diagnostics.isEmpty, (r.constTypes.get? 0).map f))
      = some (true, some true))
    (h' : (p.pruning true).check.map (fun r => r.diagnostics.isEmpty && (r.constTypes.get? 0).any f)
      = some false) : p.MissesReadings := by
  obtain ⟨r, hcheck, hr⟩ := Option.map_eq_some_iff.mp h
  obtain ⟨r', hcheck', hr'⟩ := Option.map_eq_some_iff.mp h'
  obtain ⟨hreports, hty⟩ := Prod.mk.injEq .. ▸ hr
  obtain ⟨ty, hty, hf⟩ := Option.map_eq_some_iff.mp hty
  refine ⟨r, r', ty, hcheck, hcheck', List.isEmpty_iff.mp hreports, hty, ?_⟩
  rintro ⟨hreports', hty'⟩
  rw [hreports', hty', List.isEmpty_nil, Option.any_some, hf] at hr'
  cases hr'

/-- `x : record {float a;} = {a: 1, b: 2}`, where the record takes further fields. -/
def furtherField : Program where
  source := Module.empty
    |>.addExpr (.literal (.int "1"))
    |>.addExpr (.literal (.int "2"))
    |>.addExpr (.record [.named "a" 0, .named "b" 1])
    |>.addConstant ⟨"x", Module.root, 2,
      some (.record (.ofList [("a", ⟨.primitive .float, true⟩)]) none false)⟩
  imports := []
  settings := .default

/-- `x : map<decimal> = {a: 0x10, ["a"]: 1}`. -/
def overwrittenField : Program where
  source := Module.empty
    |>.addExpr (.literal (.int "0x10"))
    |>.addExpr (.literal (.string "a"))
    |>.addExpr (.literal (.int "1"))
    |>.addExpr (.record [.named "a" 0, .computed 1 2])
    |>.addConstant ⟨"x", Module.root, 3, some (.map (.primitive .decimal))⟩
  imports := []
  settings := .default

/-- `x = [1, 0x10]`, where the second member is declared with an erroneous type. -/
def erroneousMember : Program where
  source := Module.empty
    |>.addExpr (.literal (.int "1"))
    |>.addExpr (.literal (.int "0x10"))
    |>.addExpr (.list [.member 0, .member 1])
    |>.addConstant ⟨"x", Module.root, 2, some (.tuple [.primitive .decimal, .error] none)⟩
  imports := []
  settings := .default

/-- `x : decimal[] = [?, 0x10]`, where the first member is missing. -/
def missingMember : Program where
  source := Module.empty
    |>.addExpr .missing
    |>.addExpr (.literal (.int "0x10"))
    |>.addExpr (.list [.member 0, .member 1])
    |>.addConstant ⟨"x", Module.root, 2, some (.array (.primitive .decimal) .unbounded)⟩
  imports := []
  settings := .default

/-- A program with one constant, whose value is a tree, and with concrete imports. -/
structure Program.IsSingle (p : Program) : Prop where
  one : ∃ constant, p.source.constants = #[constant] ∧ p.source.Tree constant.value
  names : p.source.NamesExist
  imports : p.ImportsOnly (Ty.isConcrete Singleton.isProper)

/-- **Readings are missed where the kinds of the declared type are not all that a value holds**: in a
further field, in one that is written over, under an erroneous type, and beside an error. -/
theorem pruning_misses_readings :
    (furtherField.IsSingle ∧ furtherField.MissesReadings)
      ∧ (overwrittenField.IsSingle ∧ overwrittenField.MissesReadings)
      ∧ (erroneousMember.IsSingle ∧ erroneousMember.MissesReadings)
      ∧ missingMember.IsSingle ∧ missingMember.MissesReadings := by
  have hsingle : ∀ (p : Program) (constant : Constant), p.source.constants = #[constant] →
      p.source.Forest → p.source.NamesExist → p.imports = [] → p.IsSingle := by
    intro p constant hone hforest hnames himports
    refine ⟨⟨constant, hone, hforest.tree (by rw [hone]; exact Array.mem_singleton_self constant)⟩,
      hnames, fun entry hentry => ?_⟩
    rw [himports] at hentry
    cases hentry
  refine ⟨⟨hsingle _ _ rfl (Module.forest_of_nodup (by decide)) ?_ rfl, ?_⟩,
    ⟨hsingle _ _ rfl (Module.forest_of_nodup (by decide)) ?_ rfl, ?_⟩,
    ⟨hsingle _ _ rfl (Module.forest_of_nodup (by decide)) ?_ rfl, ?_⟩,
    hsingle _ _ rfl (Module.forest_of_nodup (by decide)) ?_ rfl, ?_⟩
  · exact Module.Built.namesExist (Module.Built.empty |>.expr _ |>.expr _ |>.expr _ |>.constant _)
  · -- the further field is an integer, and becomes a floating-point number
    refine Program.missesReadings_of (fun ty => ty.isAssignable (.record (.ofList
      [("a", ⟨.primitive .float, true⟩), ("b", ⟨.primitive .int, true⟩)]) none true)) ?_ ?_
    · decide +kernel
    · decide +kernel
  · exact Module.Built.namesExist (Module.Built.empty |>.expr _ |>.expr _ |>.expr _ |>.expr _
      |>.constant _)
  · exact Program.missesReadings_of (fun _ => true) (by decide +kernel) (by decide +kernel)
  · exact Module.Built.namesExist (Module.Built.empty |>.expr _ |>.expr _ |>.expr _ |>.constant _)
  · exact Program.missesReadings_of (fun _ => true) (by decide +kernel) (by decide +kernel)
  · exact Module.Built.namesExist (Module.Built.empty |>.expr _ |>.expr _ |>.expr _ |>.constant _)
  · exact Program.missesReadings_of (fun _ => true) (by decide +kernel) (by decide +kernel)

end ConstNarrow
