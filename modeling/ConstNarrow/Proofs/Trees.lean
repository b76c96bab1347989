/-
**Expressions that stand in one place.**

Expressions refer to their parts by number, so a part may be shared, and an expression may even be a
part of itself. Where neither happens, an expression and its parts form a tree: below different
parts lie different expressions. What is done to one part then leaves the others alone, and this is
what every argument about an expression as a whole rests on.
-/
import Mathlib.Data.List.Nodup
import ConstNarrow.Proofs.Nesting

set_option autoImplicit false

namespace ConstNarrow.Module

variable {m : Module}

/-- Two expressions have nothing in common if no part of one stands in the other, as long as what is
in both has one parent. -/
theorem not_within_both {a b x : ExprId} (hne : a ≠ b)
    (parent : ∀ y z e, m.Within a y → m.Within b z → m.Part y e → m.Part z e → y = z)
    (ha : ∀ z, m.Within b z → ¬ m.Part z a) (hb : ∀ y, m.Within a y → ¬ m.Part y b)
    (hx : m.Within a x) : ¬ m.Within b x := by
  induction hx with
  | refl =>
    intro hba
    rcases Relation.ReflTransGen.cases_tail hba with heq | ⟨z, hz, hpart⟩
    · exact hne heq
    · exact ha z hz hpart
  | tail hy hyx ih =>
    -- from here upwards both ways to `x` are the same
    intro hbx
    rcases Relation.ReflTransGen.cases_tail hbx with heq | ⟨z, hz, hpart⟩
    · exact hb _ hy (heq ▸ hyx)
    · exact ih (parent _ _ _ hy hz hyx hpart ▸ hz)

/-- No expression under a given one is a part twice. -/
structure Unshared (m : Module) (root : ExprId) : Prop where
  nodup : ∀ e, m.Within root e → (m.expr e).children.Nodup
  parent : ∀ a b e, m.Within root a → m.Within root b → m.Part a e → m.Part b e → a = b

/-- An expression under which every expression stands in one place, and which is itself no part of
what stands there. -/
structure Tree (m : Module) (root : ExprId) : Prop extends Unshared m root where
  top : ∀ a, m.Within root a → ¬ m.Part a root

/-- Where nothing is shared, it is enough that the expression does not contain itself. -/
theorem Unshared.tree {root : ExprId} (h : m.Unshared root)
    (hroot : ¬ Relation.TransGen m.Part root root) : m.Tree root :=
  ⟨h, fun _ ha hpart => hroot (.tail' ha hpart)⟩

/-- In a module that lists no expression twice as a part, every expression has one parent. -/
theorem parent_of_nodup (h : (m.exprs.toList.flatMap Expr.children).Nodup) :
    (∀ e, (m.expr e).children.Nodup) ∧ ∀ a b e, m.Part a e → m.Part b e → a = b := by
  obtain ⟨hnodup, hapart⟩ := List.nodup_flatMap.mp h
  have hget : ∀ {e : ExprId} (he : e < m.exprs.size), m.expr e = m.exprs.toList[e] := by
    intro e he
    rw [expr, Array.getElem?_eq_getElem he, Option.getD_some, Array.getElem_toList]
  constructor
  · intro e
    by_cases he : e < m.exprs.size
    · rw [hget he]
      exact hnodup _ (List.getElem_mem _)
    · rw [expr_of_size_le (Nat.le_of_not_lt he)]
      exact List.nodup_nil
  · intro a b e hae hbe
    have ha := hae.lt_size
    have hb := hbe.lt_size
    rw [Part, hget ha] at hae
    rw [Part, hget hb] at hbe
    by_contra hne
    rcases Nat.lt_or_gt_of_ne hne with hlt | hlt
    · exact List.pairwise_iff_getElem.mp hapart a b ha hb hlt hae hbe
    · exact List.pairwise_iff_getElem.mp hapart b a hb ha hlt hbe hae

/-- So nothing is shared in it. -/
theorem unshared_of_nodup (h : (m.exprs.toList.flatMap Expr.children).Nodup) (root : ExprId) :
    m.Unshared root :=
  ⟨fun e _ => (parent_of_nodup h).1 e, fun a b e _ _ => (parent_of_nodup h).2 a b e⟩

namespace Tree

variable {root a b : ExprId}

/-- **Nothing in a tree contains itself.** An expression that did would have its parent on the same
cycle, and so on up to the root, which has no parent. -/
theorem founded (h : m.Tree root) : m.Founded root := by
  intro e he
  induction he with
  | refl =>
    intro hcycle
    obtain ⟨a, ha, hpart⟩ := Relation.TransGen.tail'_iff.mp hcycle
    exact h.top a ha hpart
  | @tail a e ha hae ih =>
    intro hcycle
    obtain ⟨b, hb, hbe⟩ := Relation.TransGen.tail'_iff.mp hcycle
    have heq : a = b := h.parent a b e ha ((ha.tail hae).trans hb) hae hbe
    exact ih (.head' hae (heq ▸ hb))

theorem not_within_part (h : m.Tree root) (ha : m.Part root a) : ¬ m.Within a root :=
  fun hroot => h.founded root .refl (.head' ha hroot)

/-- The parts of a tree are trees. -/
theorem part (h : m.Tree root) (ha : m.Part root a) : m.Tree a where
  nodup := fun e he => h.nodup e (.head ha he)
  parent := fun b c e hb hc => h.parent b c e (.head ha hb) (.head ha hc)
  top := fun b hb hpart => by
    have heq : root = b := h.parent root b a .refl (.head ha hb) ha hpart
    exact h.not_within_part ha (heq ▸ hb)

/-- **Different parts of a tree have nothing in common.** -/
theorem apart (h : m.Tree root) (ha : m.Part root a) (hb : m.Part root b) (hne : a ≠ b) {x : ExprId}
    (hx : m.Within a x) : ¬ m.Within b x := by
  have htop : ∀ c d y, m.Part root c → m.Part root d → m.Within c y → ¬ m.Part y d := by
    intro c d y hc hd hy hpart
    have heq : root = y := h.parent root y d .refl (.head hc hy) hd hpart
    exact h.not_within_part hc (heq ▸ hy)
  exact not_within_both hne (fun y z e hy hz => h.parent y z e (.head ha hy) (.head hb hz))
    (fun z hz => htop b a z hb ha hz) (fun y hy => htop a b y ha hb hy) hx

/-- No part of a tree lies below another, or below itself. -/
theorem not_below_part (h : m.Tree root) (ha : m.Part root a) (hb : m.Part root b) :
    ¬ Relation.TransGen m.Part a b := by
  intro hab
  by_cases heq : a = b
  · exact h.founded a (.single ha) (heq ▸ hab)
  · exact h.apart ha hb heq hab.to_reflTransGen .refl

end Tree

/-! ## Constants -/

/-- No expression belongs to the values of two constants. -/
def Separate (m : Module) : Prop :=
  ∀ (a b : ConstId) (first second : Constant), m.constants[a]? = some first →
    m.constants[b]? = some second → a ≠ b → ∀ e, m.Within first.value e → ¬ m.Within second.value e

/-- It is enough that every expression has an owner, which it shares with its parts. -/
theorem separate_of_owner (owner : ExprId → ConstId)
    (hpart : ∀ e < m.exprs.size, ∀ b ∈ (m.expr e).children, owner b = owner e)
    (hvalue : ∀ c < m.constants.size, ∀ constant ∈ m.constants[c]?, owner constant.value = c) :
    m.Separate := by
  have howner : ∀ {a e}, m.Within a e → owner e = owner a := by
    intro a e he
    induction he with
    | refl => rfl
    | tail _ hpart' ih => exact (hpart _ hpart'.lt_size _ hpart').trans ih
  have hconst : ∀ {c constant}, m.constants[c]? = some constant → owner constant.value = c :=
    fun hc => hvalue _ (Array.getElem?_eq_some_iff.mp hc).1 _ hc
  intro a b first second ha hb hne e hfirst hsecond
  refine hne ?_
  rw [← hconst ha, ← hconst hb, ← howner hfirst, ← howner hsecond]

end ConstNarrow.Module
