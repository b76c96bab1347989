/-
**The groups of a module are the strongly connected components of its constants**, dependencies
first.

The groups are computed from a table of dependencies, which a bounded walk through the expressions
of each constant fills. What they are is said here without the table and without the walk: a
constant mentions another one if some name in its value means the other one, and the groups sort the
constants by what mentions what.
-/
import Mathlib.Data.List.Nodup
import ConstNarrow.Proofs.OrderIndependence

set_option autoImplicit false

namespace ConstNarrow.Module

open Relation

variable {m : Module}

/-- One constant mentions another: somewhere in its value there is a plain name that means the other
one, as seen from the scope of the first. -/
def Mentions (m : Module) (a b : ConstId) : Prop :=
  ∃ constant e name, m.constants[a]? = some constant ∧ m.Within constant.value e
    ∧ m.expr e = .reference none name ∧ m.lookup constant.scope name = .bound (.constant b)

/-- **What it means to sort constants by what they depend on.** The groups are the strongly
connected components of the dependencies, and each comes after those that it depends on. -/
structure Sorts (groups : List ConstGroup) (ids : List ConstId)
    (depends : ConstId → ConstId → Prop) : Prop where
  /-- every constant is in exactly one group, and there once -/
  once : (groups.flatMap ConstGroup.members).Perm ids
  inhabited : ∀ group ∈ groups, group.members ≠ []
  connected : ∀ group ∈ groups, ∀ a ∈ group.members, ∀ b,
    b ∈ group.members ↔ a = b ∨ TransGen depends a b ∧ TransGen depends b a
  earlier : ∀ (i j : Nat) (group other : ConstGroup), groups[i]? = some group → groups[j]? = some other →
    ∀ a ∈ group.members, ∀ b ∈ other.members, depends a b → j ≤ i
  declared : ∀ group ∈ groups, group.members.Pairwise (· < ·)
  cyclic : ∀ group ∈ groups, ∀ a ∈ group.members,
    group.isCyclic = true ↔ TransGen depends a a

theorem referredConstant?_eq_some {scope : ScopeId} {e : ExprId} {target : ConstId} :
    m.referredConstant? scope e = some target ↔
      ∃ name, m.expr e = .reference none name ∧ m.lookup scope name = .bound (.constant target) := by
  constructor
  · intro h
    unfold referredConstant? at h
    split at h
    · rename_i name hexpr
      split at h
      · rename_i hlookup
        cases h
        exact ⟨name, hexpr, hlookup⟩
      · cases h
    · cases h
  · rintro ⟨name, hexpr, hlookup⟩
    simp only [referredConstant?, hexpr, hlookup]

/-- The walk through the expressions of a constant finds what it mentions, and nothing else. -/
theorem dependsOn_eq_mentions (hm : m.Acyclic) : m.DependsOn = m.Mentions := by
  funext a b
  refine propext ⟨fun h => ?_, ?_⟩
  · have hget := Array.getElem?_eq_getElem h.lt_size
    obtain ⟨e, he, href⟩ := (dependsOn_iff hm hget).mp h
    obtain ⟨name, hexpr, hlookup⟩ := referredConstant?_eq_some.mp href
    exact ⟨_, e, name, hget, he, hexpr, hlookup⟩
  · rintro ⟨constant, e, name, hget, he, hexpr, hlookup⟩
    exact (dependsOn_iff hm hget).mpr ⟨e, he, referredConstant?_eq_some.mpr ⟨name, hexpr, hlookup⟩⟩

/-- A constant is in no two groups, since it needs itself. -/
theorem nodup_flatMap_members (hm : m.NamesExist) :
    (m.groups.flatMap ConstGroup.members).Nodup := by
  refine List.nodup_flatMap.mpr ⟨fun group h => ?_, (pairwise_groups hm).imp ?_⟩
  · exact (pairwise_members hm h).imp fun hlt => ne_of_lt hlt
  · intro group other hno a ha ha'
    exact hno a ha a ha' .refl

theorem perm_flatMap_members (hm : m.NamesExist) :
    (m.groups.flatMap ConstGroup.members).Perm m.constIds := by
  show List.Perm _ (List.range m.constants.size)
  refine (List.perm_ext_iff_of_nodup (nodup_flatMap_members hm) List.nodup_range).mpr fun a => ?_
  rw [List.mem_range, List.mem_flatMap]
  constructor
  · rintro ⟨group, hgroup, ha⟩
    exact lt_size_of_mem_group hm hgroup ha
  · exact exists_group hm

/-- Besides itself, a group holds what a member reaches and is reached from. -/
theorem mem_group_iff_transGen (hm : m.NamesExist) {group : ConstGroup} (h : group ∈ m.groups)
    {a b : ConstId} (ha : a ∈ group.members) :
    b ∈ group.members ↔ a = b ∨ TransGen m.DependsOn a b ∧ TransGen m.DependsOn b a := by
  by_cases heq : a = b
  · subst heq
    exact ⟨fun _ => Or.inl rfl, fun _ => ha⟩
  rw [mem_group_iff hm h ha, Needs, Needs, reflTransGen_iff_eq_or_transGen,
    reflTransGen_iff_eq_or_transGen]
  constructor
  · rintro ⟨-, hab, hba⟩
    exact Or.inr ⟨hab.resolve_left (Ne.symm heq), hba.resolve_left heq⟩
  · rintro (hab | ⟨hab, hba⟩)
    · exact absurd hab heq
    · obtain ⟨c, -, hcb⟩ := TransGen.tail'_iff.mp hab
      exact ⟨hm.dependsOn hcb, Or.inr hab, Or.inr hba⟩

theorem le_of_dependsOn (hm : m.NamesExist) {i j : Nat} {group other : ConstGroup}
    (hi : m.groups[i]? = some group) (hj : m.groups[j]? = some other) {a b : ConstId}
    (ha : a ∈ group.members) (hb : b ∈ other.members) (hab : m.DependsOn a b) : j ≤ i := by
  by_contra hlt
  obtain ⟨hi', rfl⟩ := List.getElem?_eq_some_iff.mp hi
  obtain ⟨hj', rfl⟩ := List.getElem?_eq_some_iff.mp hj
  have hno := List.pairwise_iff_getElem.mp (pairwise_groups hm) i j hi' hj' (Nat.lt_of_not_le hlt)
  exact hno a ha b hb (.single hab)

/-- **The groups of a module are the strongly connected components of what mentions what.** Every
constant is in one group, once. Two constants share a group exactly if they are equal or reach each
other. What is mentioned stands in the same group or in an earlier one. Members are listed as they
are declared, and a group is cyclic exactly if its members lie on a cycle. -/
theorem groups_sort_constants (m : Module) (hacyclic : m.Acyclic) (hnames : m.NamesExist) :
    Sorts m.groups m.constIds m.Mentions := by
  rw [← dependsOn_eq_mentions hacyclic]
  exact {
    once := perm_flatMap_members hnames
    inhabited := fun _ h => members_ne_nil hnames h
    connected := fun _ h _ ha _ => mem_group_iff_transGen hnames h ha
    earlier := fun _ _ _ _ hi hj _ ha _ hb hab => le_of_dependsOn hnames hi hj ha hb hab
    declared := fun _ h => pairwise_members hnames h
    cyclic := fun _ h _ ha => isCyclic_iff hnames h ha }

/-- In the program with two crossing cycles, the constants on them are one group, and the constant
that mentions one of them comes later. -/
theorem groups_sort_constants_crossing :
    Sorts crossing.source.groups [0, 1, 2, 3, 4] crossing.source.Mentions
      ∧ crossing.source.groups = [⟨[0, 1, 2], true⟩, ⟨[3], false⟩, ⟨[4], false⟩] :=
  ⟨groups_sort_constants crossing.source crossing_orderly.acyclic crossing_orderly.names,
    by decide +kernel⟩

end ConstNarrow.Module
