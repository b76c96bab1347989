/-
**Positions survive splicing and filling.**

In the check of a forest, the value of a constant is evaluated, its type is settled, and the type is
committed to the value. In between, validation may give the lists of the type more members. Commitment
counts the positions of items for itself, from the types that are held for spread lists; still every
item gets the member that was made from it. This is said of the whole check: of the constants that are
not erroneous, and of every list and record that commitment visits.

That every expression is a part of one other at most is not enough for this. Two programs at the end
of the module show what happens to an expression that stands in two places.
-/
import ConstNarrow.Proofs.CommitVisits
import ConstNarrow.Proofs.Passages

set_option autoImplicit false

namespace ConstNarrow

open Checker

/-! ## Positions -/

/-- **Positions survive splicing and filling.** In a forest, with declared types that hold no error,
take a constant that is not erroneous and in whose value no record writes a computed key twice. Its
type is committed to its value. That visits the lists and records which are reached along parts with
the same expectation, each with the type that is held for it at the end, and no others. With the type
of such a visit, every item and every field stands where it was put: a scalar among them ends as the
value that the type has at its position or under its name. -/
theorem positions_survive (p : Program) (hnames : p.source.NamesExist) (hforest : p.source.Forest)
    (hdeclared : p.DeclaresOnly Ty.isNoError)
    (himports : p.ImportsOnly (Ty.isConcrete Singleton.isProper)) (hwildcard : p.NoWildcard) :
    ∃ s, p.run = some s ∧ p.check = some s.finish
      ∧ ∀ id constant, p.source.constants[id]? = some constant →
        ∃ ty, s.finish.constTypes.get? id = some ty
          ∧ (ty ≠ .error → Distinct p.source s constant.value →
            Nonempty (Passage p id constant ty s)
            ∧ ∀ (w : Passage p id constant ty s) (e : ExprId) (target : Ty),
              (CommitVisits p w.settled constant.value ty e target
                ↔ p.source.GuidedWithin constant.value e ∧ (p.source.expr e).isConstructor = true
                  ∧ s.finish.exprTypes.get? e = some target)
              ∧ (CommitVisits p w.settled constant.value ty e target →
                Positioned p w.evaluated s e target)) := by
  have hp : p.Regular false := ⟨hnames, hforest, hdeclared, himports, fun _ => hwildcard⟩
  obtain ⟨s, hrun, hcheck, h⟩ := exists_advance hp
  refine ⟨s, hrun, hcheck, fun id constant hconstant => ?_⟩
  obtain ⟨hlt, -⟩ := Array.getElem?_eq_some_iff.mp hconstant
  obtain ⟨group, hgroup, hid⟩ := Module.exists_group hnames hlt
  obtain ⟨ty, hstatus⟩ := h.resolved group hgroup id hid
  have hty := constTypes_get? s hstatus
  refine ⟨ty, hty, fun hne hdistinct => ?_⟩
  have herror := Ty.isError_eq_false hne
  refine ⟨exists_passage hp hrun hconstant hty herror, fun w e target => ?_⟩
  have hw := w.course hp hconstant herror
  have hrestates := hw.held.restates (hw.isError herror) hw.entry hw.settles
  have htree := hforest.tree (Array.mem_of_getElem? hconstant)
  have hdistinct' : Distinct p.source w.evaluated constant.value :=
    (hdistinct.agrees hw.kept.symm).of_touches htree hw.touches
  have hsettled : Agrees p.source constant.value w.evaluated w.settled := by
    obtain ⟨j, hj⟩ := w.journal
    rw [hj]
    exact ⟨fun _ _ => rfl, fun _ _ => rfl⟩
  have hvisits : CommitVisits p w.settled constant.value ty e target
      ↔ p.source.GuidedWithin constant.value e ∧ (p.source.expr e).isConstructor = true
        ∧ s.exprTypes.get? e = some target :=
    commitVisits_iff htree hw.firm hdistinct' hrestates.suited hsettled w.commits hw.kept
  refine ⟨hvisits, fun hvisit => ?_⟩
  obtain ⟨he, hform, hentry⟩ := hvisits.mp hvisit
  obtain ⟨own, hown, hpositioned⟩ :=
    allPositioned_of_commit htree hw.firm hdistinct' hrestates.suited hsettled w.commits hw.kept e he
      hform
  cases hentry.symm.trans hown
  exact hpositioned

/-- `base = [1, 2]` and `row : [float, int, int, float, float] = [3, ...base, 4]`. -/
def spliced : Program where
  source := Module.empty
    |>.addExpr (.literal (.int "1"))
    |>.addExpr (.literal (.int "2"))
    |>.addExpr (.list [.member 0, .member 1])
    |>.addConstant ⟨"base", Module.root, 2, none⟩
    |>.addExpr (.literal (.int "3"))
    |>.addExpr (.reference none "base")
    |>.addExpr (.literal (.int "4"))
    |>.addExpr (.list [.member 3, .spread 4, .member 5])
    |>.addConstant ⟨"row", Module.root, 6, some (.tuple [.primitive .float, .primitive .int,
      .primitive .int, .primitive .float, .primitive .float] none)⟩
  imports := []
  settings := .default

/-- The second list is not erroneous, and three positions come before its last item. -/
theorem spliced_fine : (spliced.run.map fun s => ((s.finish.constTypes.get? 1).map Ty.isError,
    (s.exprTypes.get? 6).isSome, s.offset [.member 3, .spread 4])) = some (some false, true, 3) := by
  decide +kernel

/-- The last item ends as the fourth of five members. -/
theorem spliced_positioned : ∃ s members v w, spliced.run = some s
    ∧ s.finish.exprTypes.get? 6 = some (.tuple members none)
    ∧ s.finish.exprTypes.get? 5 = some (.singleton v) ∧ members[3]? = some (.singleton w)
    ∧ v.sameValue w = true := by
  obtain ⟨s, hrun, -, hall⟩ := positions_survive spliced
    (Module.Built.namesExist (Module.Built.empty |>.expr _ |>.expr _ |>.expr _ |>.constant _ |>.expr _
      |>.expr _ |>.expr _ |>.expr _ |>.constant _))
    (Module.forest_of_nodup (by decide)) (by unfold Program.DeclaresOnly; decide)
    (fun _ h => (by cases h))
    (Module.forall_expr (P := fun e => e ≠ .reference none Module.wildcardName) (by decide) (by decide))
  obtain ⟨ty, hty, hpositions⟩ := hall 1 _ rfl
  have hfine := spliced_fine
  rw [hrun, Option.map_some, hty, Option.some.injEq, Prod.mk.injEq, Prod.mk.injEq] at hfine
  obtain ⟨herror, hentry, hoffset⟩ := hfine
  have hne : ty ≠ .error := by
    rintro rfl
    cases herror
  have hdistinct : Distinct spliced.source s 6 := by
    intro e fields _ hexpr
    refine absurd hexpr (Module.forall_expr (P := fun e => e ≠ .record fields) ?_ (fun h => by cases h) e)
    simp [spliced, Module.addExpr, Module.addConstant, Module.define, Module.empty]
  obtain ⟨⟨w⟩, hvisits⟩ := hpositions hne hdistinct
  obtain ⟨target, htarget⟩ := Option.isSome_iff_exists.mp hentry
  obtain ⟨hiff, hpositioned⟩ := hvisits w 6 target
  obtain ⟨members, rfl, hitems⟩ := hpositioned (hiff.mpr ⟨.refl, rfl, htarget⟩)
  obtain ⟨v, x, hv, hx, hsame⟩ := (hitems [.member 3, .spread 4] 5 [] rfl).same trivial
  rw [hoffset] at hx
  exact ⟨s, members, v, x, hrun, htarget, hv, hx, hsame⟩

/-- Every expression is a part of one other at most, and the value of one constant at most, and there
are no records. The rest is as in a program whose check is followed here. -/
structure Program.OneParent (p : Program) : Prop where
  parent : ∀ a b e, p.source.Part a e → p.source.Part b e → a = b
  values : (p.source.constants.toList.map Constant.value).Nodup
  records : ∀ e ∈ p.source.exprs.toList, ∀ fields, e ≠ .record fields
  names : p.source.NamesExist
  declared : p.DeclaresOnly Ty.isNoError
  imports : p.ImportsOnly (Ty.isConcrete Singleton.isProper)
  wildcard : p.NoWildcard

/-- A constant is not erroneous, and yet an item of a list that is visited does not stand where it was
put. This is so whatever state the list was evaluated and committed in. -/
def Misplaces (p : Program) (id : ConstId) : Prop :=
  ∃ s constant ty e target, p.run = some s ∧ p.source.constants[id]? = some constant
    ∧ s.finish.constTypes.get? id = some ty ∧ ty ≠ .error
    ∧ ∀ t, CommitVisits p t constant.value ty e target ∧ ¬ Positioned p t s e target

/-- A literal that keeps several readings does not stand where it was put. -/
theorem misplaces_of_literal {p : Program} {id : ConstId} {constant : Constant} {literal : Literal}
    (before : List ListItem) (part : ExprId) (after : List ListItem)
    (hconstant : p.source.constants[id]? = some constant)
    (hlist : p.source.expr constant.value = .list (before ++ .member part :: after))
    (hpart : p.source.expr part = .literal literal)
    (hrun : (p.run.map fun s => ((s.finish.constTypes.get? id).map Ty.isError,
      ((s.exprTypes.get? part).bind Ty.singleton?).isSome)) = some (some false, false)) :
    Misplaces p id := by
  obtain ⟨s, hs, heq⟩ := Option.map_eq_some_iff.mp hrun
  obtain ⟨herror, hsingle⟩ := Prod.mk.injEq .. ▸ heq
  obtain ⟨ty, hty, hok⟩ := Option.map_eq_some_iff.mp herror
  have hform : (p.source.expr constant.value).isConstructor = true := by
    rw [hlist]
    rfl
  refine ⟨s, constant, ty, constant.value, _, hs, hconstant, hty, ?_,
    fun t => ⟨commitVisits_self hform t ty, fun hpositioned => ?_⟩⟩
  · rintro rfl
    cases hok
  · rw [Positioned, hlist] at hpositioned
    obtain ⟨members, -, hitems⟩ := hpositioned
    have hscalar : IsScalar p s part := by
      rw [IsScalar, hpart]
      trivial
    obtain ⟨v, w, hv, -⟩ := (hitems before part after rfl).same hscalar
    rw [hv] at hsingle
    cases hsingle

/-- `y : string = ([...e, 2])`, `x : [int, int] = e` and `z : int[] = [...e, 2]`, where `e` is the one
list `[1]`, and the list around it is one list, too. -/
def stretched : Program where
  source := Module.empty
    |>.addExpr (.literal (.int "1"))
    |>.addExpr (.list [.member 0])
    |>.addExpr (.literal (.int "2"))
    |>.addExpr (.list [.spread 1, .member 2])
    |>.addExpr (.group 3)
    |>.addConstant ⟨"y", Module.root, 4, some (.primitive .string)⟩
    |>.addConstant ⟨"x", Module.root, 1, some (.tuple [.primitive .int, .primitive .int] none)⟩
    |>.addConstant ⟨"z", Module.root, 3, some (.array (.primitive .int) .unbounded)⟩
  imports := []
  settings := .default

/-- `x : [[int, int], float] = [e, ...e, 1]`, where `e` is the one list `[]`. -/
def doubled : Program where
  source := Module.empty
    |>.addExpr (.list [])
    |>.addExpr (.literal (.int "1"))
    |>.addExpr (.list [.member 0, .spread 0, .member 1])
    |>.addConstant ⟨"x", Module.root, 2,
      some (.tuple [.tuple [.primitive .int, .primitive .int] none, .primitive .float] none)⟩
  imports := []
  settings := .default

theorem stretched_oneParent : stretched.OneParent where
  parent := (Module.parent_of_nodup (by decide)).2
  values := by decide
  records := by simp [stretched, Module.addExpr, Module.addConstant, Module.define, Module.empty]
  names := Module.Built.namesExist (Module.Built.empty |>.expr _ |>.expr _ |>.expr _ |>.expr _
    |>.expr _ |>.constant _ |>.constant _ |>.constant _)
  declared := by unfold Program.DeclaresOnly; decide
  imports := fun _ h => (by cases h)
  wildcard := Module.forall_expr (P := fun e => e ≠ .reference none Module.wildcardName) (by decide)
    (by decide)

theorem doubled_oneParent : doubled.OneParent where
  parent := by
    have hall : ∀ a < 3, (doubled.source.expr a).children ≠ [] → a = 2 := by decide
    have honly : ∀ a e, doubled.source.Part a e → a = 2 := fun a e hpart =>
      hall a hpart.lt_size (List.ne_nil_of_mem hpart)
    exact fun a b e ha hb => (honly a e ha).trans (honly b e hb).symm
  values := by decide
  records := by simp [doubled, Module.addExpr, Module.addConstant, Module.define, Module.empty]
  names := Module.Built.namesExist (Module.Built.empty |>.expr _ |>.expr _ |>.expr _ |>.constant _)
  declared := by unfold Program.DeclaresOnly; decide
  imports := fun _ h => (by cases h)
  wildcard := Module.forall_expr (P := fun e => e ≠ .reference none Module.wildcardName) (by decide)
    (by decide)

/-- **An expression that stands in two places loses its position.** In the first program the list that
is spread has grown with another constant since it was spread; in the second it grows with the item
before. The number after it is looked for too far to the right, and keeps its readings. -/
theorem shared_lists_misplace : (stretched.OneParent ∧ Misplaces stretched 2)
    ∧ doubled.OneParent ∧ Misplaces doubled 0 := by
  refine ⟨⟨stretched_oneParent, misplaces_of_literal [.spread 1] 2 [] rfl rfl rfl ?_⟩,
    doubled_oneParent, misplaces_of_literal [.member 0, .spread 0] 1 [] rfl rfl rfl ?_⟩
  · decide +kernel
  · decide +kernel

end ConstNarrow
