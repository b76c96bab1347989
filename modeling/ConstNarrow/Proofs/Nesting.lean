/-
**Nesting of expressions**, and the constants that an expression refers to.

An expression is founded if nothing in it contains itself. Along the parts of such an expression the
number of expressions that can still be met falls with every step, and there are no more of them
than the module has expressions. This is the `height` of an expression; every bound on the depth of
a recursion is compared with it. A module is acyclic if all its expressions are founded.
-/
import Mathlib.Logic.Relation
import Mathlib.Data.Finset.Card
import Mathlib.Data.Finset.Range
import ConstNarrow.Module.Dependency

set_option autoImplicit false

namespace ConstNarrow

/-! ## Descent along a relation -/

open Classical in
/-- How many numbers below `n` a relation leads to from `a`, in one step or more. -/
noncomputable def reachCount (r : Nat → Nat → Prop) (n a : Nat) : Nat :=
  ((Finset.range n).filter fun b => Relation.TransGen r a b).card

variable {r : Nat → Nat → Prop} {n a b : Nat}

/-- A step to a number on no cycle leaves less to be reached: all but that number itself. -/
theorem reachCount_lt (hb : b < n) (hr : r a b) (hc : ¬ Relation.TransGen r b b) :
    reachCount r n b < reachCount r n a := by
  classical
  refine Finset.card_lt_card (Finset.ssubset_iff_subset_ne.mpr ⟨fun x hx => ?_, fun heq => ?_⟩)
  · rw [Finset.mem_filter] at hx ⊢
    exact ⟨hx.1, hx.2.head hr⟩
  · have hmem : b ∈ (Finset.range n).filter fun x => Relation.TransGen r a x :=
      Finset.mem_filter.mpr ⟨Finset.mem_range.mpr hb, .single hr⟩
    rw [← heq, Finset.mem_filter] at hmem
    exact hc hmem.2

/-- From a number on no cycle at least this number itself is not reached. -/
theorem reachCount_lt_bound (ha : a < n) (hc : ¬ Relation.TransGen r a a) :
    reachCount r n a < n := by
  classical
  have hsub : (Finset.range n).filter (fun b => Relation.TransGen r a b) ⊂ Finset.range n := by
    refine Finset.ssubset_iff_subset_ne.mpr ⟨Finset.filter_subset _ _, fun heq => ?_⟩
    have hmem : a ∈ Finset.range n := Finset.mem_range.mpr ha
    rw [← heq, Finset.mem_filter] at hmem
    exact hc hmem.2
  have hlt := Finset.card_lt_card hsub
  rwa [Finset.card_range] at hlt

namespace Module

variable {m : Module}

/-! ## Parts of expressions -/

/-- One expression has another as a part. -/
def Part (m : Module) (a b : ExprId) : Prop := b ∈ (m.expr a).children

section Forms

variable {a b : ExprId}

theorem part_list_iff {items : List ListItem} (h : m.expr a = .list items) :
    m.Part a b ↔ ∃ item ∈ items, item.expr = b := by
  rw [Part, h]
  exact List.mem_map

theorem part_record_iff {fields : List RecordField} (h : m.expr a = .record fields) :
    m.Part a b ↔ ∃ field ∈ fields, b ∈ field.exprs := by
  rw [Part, h]
  exact List.mem_flatMap

theorem part_binary_iff {op : BinaryOp} {lhs rhs : ExprId} (h : m.expr a = .binary op lhs rhs) :
    m.Part a b ↔ b = lhs ∨ b = rhs := by
  rw [Part, h]
  exact List.mem_pair

theorem part_unary_iff {op : UnaryOp} {operand : ExprId} (h : m.expr a = .unary op operand) :
    m.Part a b ↔ b = operand := by
  rw [Part, h]
  exact List.mem_singleton

theorem part_group_iff {inner : ExprId} (h : m.expr a = .group inner) : m.Part a b ↔ b = inner := by
  rw [Part, h]
  exact List.mem_singleton

end Forms

/-- An expression is another one or lies somewhere in it. -/
def Within (m : Module) (a b : ExprId) : Prop := Relation.ReflTransGen m.Part a b

/-- No expression contains itself. -/
def Acyclic (m : Module) : Prop := ∀ id, ¬ Relation.TransGen m.Part id id

/-- Nothing within an expression contains itself. -/
def Founded (m : Module) (id : ExprId) : Prop :=
  ∀ e, m.Within id e → ¬ Relation.TransGen m.Part e e

theorem Acyclic.founded (hm : m.Acyclic) (id : ExprId) : m.Founded id := fun e _ => hm e

theorem Founded.part {a b : ExprId} (h : m.Founded a) (hpart : m.Part a b) : m.Founded b :=
  fun e he => h e (.head hpart he)

/-- Whatever leads back to an expression leads there through one of its parts. -/
theorem founded_of_parts {id : ExprId} (h : ∀ b, m.Part id b → m.Founded b) : m.Founded id := by
  intro e he
  rcases Relation.ReflTransGen.cases_head he with rfl | ⟨b, hpart, hb⟩
  · intro hcycle
    obtain ⟨b, hpart, hb⟩ := Relation.TransGen.head'_iff.mp hcycle
    exact h b hpart id hb hcycle
  · exact h b hpart e hb

/-- How many expressions there are from an expression downwards. A number without an expression
counts for nothing. -/
noncomputable def height (m : Module) (id : ExprId) : Nat :=
  if id < m.exprs.size then reachCount m.Part m.exprs.size id + 1 else 0

/-- There is no expression under a number that is too large. -/
theorem expr_of_size_le {id : ExprId} (h : m.exprs.size ≤ id) : m.expr id = .missing := by
  rw [expr, Array.getElem?_eq_none h, Option.getD_none]

theorem Part.lt_size {a b : ExprId} (h : m.Part a b) : a < m.exprs.size := by
  by_contra hle
  rw [Part, expr_of_size_le (Nat.le_of_not_lt hle)] at h
  cases h

theorem Founded.height_le {id : ExprId} (h : m.Founded id) : m.height id ≤ m.exprs.size := by
  unfold height
  split
  · rename_i hlt
    exact reachCount_lt_bound hlt (h id .refl)
  · exact Nat.zero_le _

/-- **Parts have less height.** -/
theorem Founded.height_lt {a b : ExprId} (h : m.Founded a) (hpart : m.Part a b) :
    m.height b < m.height a := by
  unfold height
  rw [if_pos hpart.lt_size]
  split
  · rename_i hb
    have := reachCount_lt hb hpart (h b (.single hpart))
    omega
  · omega

theorem height_le (hm : m.Acyclic) (id : ExprId) : m.height id ≤ m.exprs.size :=
  (hm.founded id).height_le

theorem Part.height_lt (hm : m.Acyclic) {a b : ExprId} (h : m.Part a b) :
    m.height b < m.height a :=
  (hm.founded a).height_lt h

/-- A module is acyclic if every part has a smaller number than what it is a part of. -/
theorem acyclic_of_lt (h : ∀ id < m.exprs.size, ∀ b ∈ (m.expr id).children, b < id) :
    m.Acyclic := by
  have hlt : ∀ a b, Relation.TransGen m.Part a b → b < a := by
    intro a b hab
    induction hab with
    | single hpart => exact h a hpart.lt_size _ hpart
    | tail _ hpart ih => exact (h _ hpart.lt_size _ hpart).trans ih
  exact fun id hid => lt_irrefl id (hlt id id hid)

/-! ## The constants that an expression refers to -/

/-- Only an expression of the module refers to a constant. -/
theorem referredConstant?_lt_size {scope : ScopeId} {id : ExprId} {target : ConstId}
    (h : m.referredConstant? scope id = some target) : id < m.exprs.size := by
  by_contra hle
  rw [referredConstant?, expr_of_size_le (Nat.le_of_not_lt hle)] at h
  cases h

/-- What the walk finds is referred to from within the expression. -/
theorem exists_within_of_mem_referredWithin {scope : ScopeId} {n : Nat} {id : ExprId}
    {target : ConstId} (h : target ∈ m.referredWithin scope n id) :
    ∃ e, m.Within id e ∧ m.referredConstant? scope e = some target := by
  induction n generalizing id with
  | zero => cases h
  | succ n ih =>
    rw [referredWithin, List.mem_append] at h
    rcases h with h | h
    · exact ⟨id, .refl, Option.mem_toList.mp h⟩
    · obtain ⟨part, hpart, hmem⟩ := List.mem_flatMap.mp h
      obtain ⟨e, he, href⟩ := ih hmem
      exact ⟨e, .head (List.mem_reverse.mp hpart) he, href⟩

/-- The walk down to a depth of at least the height misses nothing. -/
theorem mem_referredWithin {scope : ScopeId} {id e : ExprId} {target : ConstId}
    (hid : m.Founded id) (he : m.Within id e) (href : m.referredConstant? scope e = some target)
    {n : Nat} (hn : m.height id ≤ n) : target ∈ m.referredWithin scope n id := by
  induction he using Relation.ReflTransGen.head_induction_on generalizing n with
  | refl =>
    -- an expression that names something is no gap, so its height is not zero
    have hpos : 0 < m.height e := by
      rw [height, if_pos (referredConstant?_lt_size href)]
      exact Nat.succ_pos _
    obtain ⟨k, rfl⟩ : ∃ k, n = k + 1 := ⟨n - 1, by omega⟩
    rw [referredWithin, href]
    exact List.mem_append.mpr (Or.inl (List.mem_singleton.mpr rfl))
  | head hpart _ ih =>
    have hlt := hid.height_lt hpart
    obtain ⟨k, rfl⟩ : ∃ k, n = k + 1 := ⟨n - 1, by omega⟩
    rw [referredWithin]
    refine List.mem_append.mpr (Or.inr (List.mem_flatMap.mpr ⟨_, List.mem_reverse.mpr hpart, ?_⟩))
    exact ih (hid.part hpart) (by omega)

/-- One constant depends on another. -/
def DependsOn (m : Module) (a b : ConstId) : Prop := b ∈ m.dependencies a

/-- **The dependencies of a constant are the constants that its value refers to.** -/
theorem Founded.dependsOn_iff {id target : ConstId} {constant : Constant}
    (hvalue : m.Founded constant.value) (hc : m.constants[id]? = some constant) :
    m.DependsOn id target ↔
      ∃ e, m.Within constant.value e ∧ m.referredConstant? constant.scope e = some target := by
  have hdeps : m.dependencies id
      = m.referredWithin constant.scope m.exprs.size constant.value := by
    rw [dependencies, hc]
  rw [DependsOn, hdeps]
  constructor
  · exact exists_within_of_mem_referredWithin
  · rintro ⟨e, he, href⟩
    exact mem_referredWithin hvalue he href hvalue.height_le

/-- The same in a module in which no expression contains itself. -/
theorem dependsOn_iff (hm : m.Acyclic) {id target : ConstId} {constant : Constant}
    (hc : m.constants[id]? = some constant) :
    m.DependsOn id target ↔
      ∃ e, m.Within constant.value e ∧ m.referredConstant? constant.scope e = some target :=
  (hm.founded _).dependsOn_iff hc

theorem DependsOn.lt_size {a b : ConstId} (h : m.DependsOn a b) : a < m.constants.size := by
  by_contra hle
  rw [DependsOn, dependencies, Array.getElem?_eq_none (Nat.le_of_not_lt hle)] at h
  cases h

end Module

end ConstNarrow
