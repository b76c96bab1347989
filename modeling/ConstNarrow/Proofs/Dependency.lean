/-
**Groups of constants**: the components of the graph of dependencies, read as facts about the
module.

A group holds a constant and all those that it depends on and that depend on it. It is cyclic
exactly if its members depend on themselves, directly or through others, and no group depends on a
later one. All of this rests on the names of the module: a name that stands for a constant stands
for one that has been declared.
-/
import ConstNarrow.Proofs.Components
import ConstNarrow.Proofs.Nesting

set_option autoImplicit false

namespace ConstNarrow.Module

variable {m : Module}

/-! ## Names of constants -/

/-- Every name that is bound to a constant is bound to one of the module. -/
def NamesExist (m : Module) : Prop :=
  ∀ scope ∈ m.scopes, ∀ entry ∈ scope.definitions, ∀ id, entry.2 = .constant id →
    id < m.constants.size

/-- A module as it is built: from nothing, by scopes, expressions, constants, and names for what is
no constant. -/
inductive Built : Module → Prop where
  | empty : Built .empty
  | scope {m : Module} (h : Built m) (parent : ScopeId) : Built (m.addScope parent)
  | expr {m : Module} (h : Built m) (expr : Expr) : Built (m.addExpr expr)
  | constant {m : Module} (h : Built m) (constant : Constant) : Built (m.addConstant constant)
  | variableName {m : Module} (h : Built m) (scope : ScopeId) (name : String) :
      Built (m.define scope name .variableName)
  | functionName {m : Module} (h : Built m) (scope : ScopeId) (name : String) :
      Built (m.define scope name .functionName)

/-- A definition of what exists leaves every name to something that exists. -/
theorem NamesExist.define (h : m.NamesExist) (scope : ScopeId) (name : String) (binding : Binding)
    (hb : ∀ id, binding = .constant id → id < m.constants.size) :
    (m.define scope name binding).NamesExist := by
  intro s hs entry hentry id hid
  show id < m.constants.size
  obtain ⟨i, hi, rfl⟩ := Array.mem_iff_getElem.mp hs
  simp only [Module.define, Array.size_modify] at hi
  simp only [Module.define, Array.getElem_modify] at hentry
  split at hentry
  · rcases List.mem_append.mp hentry with hentry | hentry
    · exact h _ (Array.getElem_mem hi) entry (List.mem_of_mem_filter hentry) id hid
    · rw [List.mem_singleton.mp hentry] at hid
      exact hb id hid
  · exact h _ (Array.getElem_mem hi) entry hentry id hid

/-- **In a module as it is built, names of constants stand for constants.** -/
theorem Built.namesExist (h : m.Built) : m.NamesExist := by
  induction h with
  | empty =>
    intro scope hs entry hentry
    rw [Module.empty] at hs
    rw [Array.mem_singleton.mp hs] at hentry
    cases hentry
  | scope _ parent ih =>
    intro scope hs entry hentry id hid
    rcases Array.mem_push.mp hs with hs | rfl
    · exact ih scope hs entry hentry id hid
    · cases hentry
  | expr _ _ ih => exact ih
  | @constant m _ constant ih =>
    refine NamesExist.define (m := { m with constants := m.constants.push constant }) ?_ _ _ _ ?_
    · intro scope hs entry hentry id hid
      show id < (m.constants.push constant).size
      rw [Array.size_push]
      exact Nat.lt_succ_of_lt (ih scope hs entry hentry id hid)
    · intro id hid
      cases hid
      show m.constants.size < (m.constants.push constant).size
      rw [Array.size_push]
      exact Nat.lt_succ_self _
  | variableName _ scope name ih => exact ih.define scope name _ (fun id hid => by cases hid)
  | functionName _ scope name ih => exact ih.define scope name _ (fun id hid => by cases hid)

theorem mem_scopes_of_mem_scopesFrom {n : Nat} {id : ScopeId} {scope : Scope}
    (h : scope ∈ m.scopesFrom n id) : scope ∈ m.scopes := by
  induction n generalizing id with
  | zero => cases h
  | succ n ih =>
    rw [scopesFrom] at h
    cases hs : m.scopes[id]? with
    | none =>
      rw [hs] at h
      cases h
    | some first =>
      rw [hs] at h
      rcases List.mem_cons.mp h with rfl | h
      · exact Array.mem_of_getElem? hs
      · cases hp : first.parent with
        | none =>
          rw [hp] at h
          cases h
        | some parent =>
          rw [hp] at h
          exact ih h

theorem mem_of_lookup {α β : Type} [BEq α] [LawfulBEq α] {entries : List (α × β)} {key : α}
    {value : β} (h : entries.lookup key = some value) : (key, value) ∈ entries := by
  induction entries with
  | nil => cases h
  | cons entry rest ih =>
    obtain ⟨k, v⟩ := entry
    rw [List.lookup_cons] at h
    split at h
    · rename_i hk
      cases h
      rw [eq_of_beq hk]
      exact List.mem_cons_self
    · exact List.mem_cons_of_mem _ (ih h)

/-- What a name stands for is declared. -/
theorem NamesExist.lookup (h : m.NamesExist) {scope : ScopeId} {name : String} {id : ConstId}
    (hl : m.lookup scope name = .bound (.constant id)) : id < m.constants.size := by
  unfold Module.lookup at hl
  split at hl
  · cases hl
  · split at hl
    · rename_i binding hfound
      cases hl
      obtain ⟨s, hs, hget⟩ := List.exists_of_findSome?_eq_some hfound
      exact h s (mem_scopes_of_mem_scopesFrom hs) _ (mem_of_lookup hget) id rfl
    · cases hl

theorem NamesExist.referred (h : m.NamesExist) {scope : ScopeId} {e : ExprId} {id : ConstId}
    (hr : m.referredConstant? scope e = some id) : id < m.constants.size := by
  unfold referredConstant? at hr
  split at hr
  · split at hr
    · rename_i target hl
      cases hr
      exact h.lookup hl
    · cases hr
  · cases hr

theorem NamesExist.dependsOn (h : m.NamesExist) {a b : ConstId} (hd : m.DependsOn a b) :
    b < m.constants.size := by
  cases hc : m.constants[a]? with
  | none =>
    rw [DependsOn, dependencies, hc] at hd
    cases hd
  | some constant =>
    rw [DependsOn, dependencies, hc] at hd
    obtain ⟨e, -, href⟩ := exists_within_of_mem_referredWithin hd
    exact h.referred href

/-! ## The graph of dependencies -/

/-- One constant needs another: it is that constant, or depends on it through others. -/
def Needs (m : Module) (a b : ConstId) : Prop := Relation.ReflTransGen m.DependsOn a b

/-- A constant depends on itself, directly or through others. -/
def OnCycle (m : Module) (a : ConstId) : Prop := Relation.TransGen m.DependsOn a a

theorem edge_dependencyGraph (a b : ConstId) :
    m.dependencyGraph.Edge a b ↔ m.DependsOn a b := by
  by_cases ha : a < m.constants.size
  · have hget : m.dependencyTable[a]? = some (m.dependencies a).eraseDups := by
      simp [dependencyTable, constIds, ha]
    show b ∈ (m.dependencyTable[a]?.getD []).reverse ↔ b ∈ m.dependencies a
    rw [hget, Option.getD_some, List.mem_reverse, List.mem_eraseDups]
  · have hget : m.dependencyTable[a]? = none := by
      simp [dependencyTable, constIds, Nat.le_of_not_lt ha]
    constructor
    · intro h
      replace h : b ∈ (m.dependencyTable[a]?.getD []).reverse := h
      rw [hget] at h
      cases h
    · intro h
      exact absurd h.lt_size ha

theorem leads_dependencyGraph (a b : ConstId) :
    m.dependencyGraph.Leads a b ↔ m.Needs a b := by
  have hrel : m.dependencyGraph.Edge = m.DependsOn := by
    funext a b
    exact propext (edge_dependencyGraph a b)
  rw [Graph.Leads, Needs, hrel]

theorem NamesExist.bounded (h : m.NamesExist) : m.dependencyGraph.Bounded := by
  intro a b hab
  exact h.dependsOn ((edge_dependencyGraph a b).mp hab)

/-! ## Groups -/

theorem exists_component_of_mem_groups {group : ConstGroup} (h : group ∈ m.groups) :
    group.members ∈ m.dependencyGraph.components
      ∧ group.isCyclic = (1 < group.members.length || group.members.any m.dependsOnItself) := by
  obtain ⟨component, hc, rfl⟩ := List.mem_map.mp h
  exact ⟨hc, rfl⟩

/-- The members of a group depend on each other. -/
theorem mem_group_iff (hm : m.NamesExist) {group : ConstGroup} (h : group ∈ m.groups)
    {a b : ConstId} (ha : a ∈ group.members) :
    b ∈ group.members ↔ b < m.constants.size ∧ m.Needs a b ∧ m.Needs b a := by
  rw [Graph.mem_component_iff hm.bounded (exists_component_of_mem_groups h).1 ha, Graph.Mutual,
    leads_dependencyGraph, leads_dependencyGraph]
  rfl

theorem lt_size_of_mem_group (hm : m.NamesExist) {group : ConstGroup} (h : group ∈ m.groups)
    {a : ConstId} (ha : a ∈ group.members) : a < m.constants.size :=
  ((mem_group_iff hm h ha).mp ha).1

theorem exists_group (hm : m.NamesExist) {a : ConstId} (ha : a < m.constants.size) :
    ∃ group ∈ m.groups, a ∈ group.members := by
  obtain ⟨component, hc, hmem⟩ := Graph.exists_component hm.bounded (a := a) ha
  exact ⟨_, List.mem_map.mpr ⟨component, hc, rfl⟩, hmem⟩

theorem members_ne_nil (hm : m.NamesExist) {group : ConstGroup} (h : group ∈ m.groups) :
    group.members ≠ [] :=
  Graph.component_ne_nil hm.bounded (exists_component_of_mem_groups h).1

/-- Members are listed in the order of their declaration. -/
theorem pairwise_members (hm : m.NamesExist) {group : ConstGroup} (h : group ∈ m.groups) :
    group.members.Pairwise (· < ·) :=
  Graph.pairwise_component hm.bounded (exists_component_of_mem_groups h).1

/-- **No group depends on a later one.** -/
theorem pairwise_groups (hm : m.NamesExist) :
    m.groups.Pairwise fun g h => ∀ a ∈ g.members, ∀ b ∈ h.members, ¬ m.Needs a b := by
  refine List.pairwise_map.mpr ((Graph.pairwise_components hm.bounded).imp ?_)
  intro c d h a ha b hb hab
  exact h a ha b hb ((leads_dependencyGraph a b).mpr hab)

/-- **A group is cyclic if its members lie on a cycle**, and then all of them do. -/
theorem isCyclic_iff (hm : m.NamesExist) {group : ConstGroup} (h : group ∈ m.groups)
    {a : ConstId} (ha : a ∈ group.members) : group.isCyclic = true ↔ m.OnCycle a := by
  rw [(exists_component_of_mem_groups h).2, Bool.or_eq_true, decide_eq_true_iff]
  constructor
  · rintro (hlen | hself)
    · -- some member differs from `a`, and the way to it and back is a cycle
      obtain ⟨b, hb, hne⟩ : ∃ b ∈ group.members, b ≠ a := by
        by_contra hall
        push Not at hall
        have hnodup : group.members.Nodup := (pairwise_members hm h).imp fun hlt => ne_of_lt hlt
        match hlist : group.members, hlen with
        | x :: y :: rest, _ =>
          rw [hlist] at hnodup hall
          have hxy : x = y := (hall x (by simp)).trans (hall y (by simp)).symm
          exact (List.nodup_cons.mp hnodup).1 (hxy ▸ List.mem_cons_self)
      obtain ⟨-, hab, hba⟩ := (mem_group_iff hm h ha).mp hb
      rcases Relation.reflTransGen_iff_eq_or_transGen.mp hab with heq | hab
      · exact absurd heq hne
      · exact hab.trans_left hba
    · obtain ⟨b, hb, hdep⟩ := List.any_eq_true.mp hself
      obtain ⟨-, hab, hba⟩ := (mem_group_iff hm h ha).mp hb
      have hbb : m.DependsOn b b := List.contains_iff_mem.mp hdep
      exact Relation.TransGen.trans_left (Relation.TransGen.trans_right hab (.single hbb)) hba
  · intro hcycle
    obtain ⟨b, hab, hba⟩ := Relation.TransGen.head'_iff.mp hcycle
    have hbmem : b ∈ group.members :=
      (mem_group_iff hm h ha).mpr ⟨hm.dependsOn hab, .single hab, hba⟩
    by_cases heq : b = a
    · refine Or.inr (List.any_eq_true.mpr ⟨a, ha, ?_⟩)
      exact List.contains_iff_mem.mpr (heq ▸ hab)
    · refine Or.inl ?_
      by_contra hlen
      match hlist : group.members with
      | [] => rw [hlist] at ha; cases ha
      | [x] =>
        rw [hlist] at ha hbmem
        rw [List.mem_singleton] at ha hbmem
        exact heq (hbmem.trans ha.symm)
      | x :: y :: rest => rw [hlist] at hlen; simp at hlen

/-- A group that is not cyclic is one constant. -/
theorem members_eq_singleton (hm : m.NamesExist) {group : ConstGroup} (h : group ∈ m.groups)
    (hc : group.isCyclic = false) : ∃ a, group.members = [a] := by
  have hne := members_ne_nil hm h
  rw [(exists_component_of_mem_groups h).2, Bool.or_eq_false_iff, decide_eq_false_iff_not] at hc
  match hlist : group.members with
  | [] => exact absurd hlist hne
  | [a] => exact ⟨a, rfl⟩
  | x :: y :: rest =>
    rw [hlist] at hc
    simp at hc

/-- What a group depends on lies in the group or in one before it. -/
theorem mem_of_dependsOn (hm : m.NamesExist) {done rest : List ConstGroup} {group : ConstGroup}
    (hgroups : m.groups = done ++ group :: rest) {a b : ConstId} (ha : a ∈ group.members)
    (hd : m.DependsOn a b) : b ∈ group.members ∨ ∃ other ∈ done, b ∈ other.members := by
  obtain ⟨other, hother, hb⟩ := exists_group hm (hm.dependsOn hd)
  rw [hgroups, List.mem_append, List.mem_cons] at hother
  rcases hother with hother | rfl | hother
  · exact Or.inr ⟨other, hother, hb⟩
  · exact Or.inl hb
  · have hpair := pairwise_groups hm
    rw [hgroups, List.pairwise_append] at hpair
    have hnot := (List.pairwise_cons.mp hpair.2.1).1 other hother a ha b hb
    exact absurd (Relation.ReflTransGen.single hd) hnot

end ConstNarrow.Module
