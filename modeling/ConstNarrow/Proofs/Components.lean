/-
**Components of a graph**: what the depth-first walk finds, and in which order.

A node that has been entered and not finished is open. Every open node leads to the node that is
being visited, so when a node finishes, each successor of a finished node is finished too or leads
back to it. That is all the order of finishing has to say: if no node of its component finishes
after a node, then everything that the node leads to has finished before. The components, each
taken at the node that finishes last, therefore come after all that they lead to.
-/
import Mathlib.Logic.Relation
import Mathlib.Data.Finset.Card
import Mathlib.Data.Finset.Range
import ConstNarrow.Module.Graph

set_option autoImplicit false

namespace ConstNarrow.Graph

/-! ## Paths -/

/-- One node has another as a successor. -/
def Edge (g : Graph) (a b : Nat) : Prop := b ∈ g.successors a

/-- One node leads to another along edges, if only to itself. -/
def Leads (g : Graph) (a b : Nat) : Prop := Relation.ReflTransGen g.Edge a b

/-- Two nodes lead to each other. -/
def Mutual (g : Graph) (a b : Nat) : Prop := g.Leads a b ∧ g.Leads b a

/-- All edges end at nodes of the graph. -/
def Bounded (g : Graph) : Prop := ∀ a b, g.Edge a b → b < g.size

variable {g : Graph}

theorem Leads.lt (hg : g.Bounded) {a b : Nat} (h : g.Leads a b) (ha : a < g.size) : b < g.size := by
  induction h with
  | refl => exact ha
  | tail _ hedge _ => exact hg _ _ hedge

/-! ## The walk -/

namespace Walk

/-- The number of nodes that a walk has not entered. -/
def unseen (g : Graph) (walk : Walk) : Nat :=
  ((Finset.range g.size).filter fun x => x ∉ walk.entered).card

/-- What a walk has found: the finished nodes are all different and have been entered, as have
their successors; and when a node finished, each successor of the nodes finished so far either
was among them or leads to that node. -/
structure Coherent (g : Graph) (walk : Walk) : Prop where
  entered : ∀ x ∈ walk.finished, x ∈ walk.entered
  closed : ∀ x ∈ walk.finished, ∀ y, g.Edge x y → y ∈ walk.entered
  nodup : walk.finished.Nodup
  ordered : ∀ l x r, walk.finished = l ++ x :: r →
    ∀ z ∈ l ++ [x], ∀ y, g.Edge z y → y ∈ l ++ [x] ∨ g.Leads y x

/-- A walk goes on: it enters and finishes the new nodes, and leaves open what was open. -/
structure Grows (walk next : Walk) (new : List Nat) : Prop where
  finished : next.finished = walk.finished ++ new
  entered : ∀ x, x ∈ next.entered ↔ x ∈ walk.entered ∨ x ∈ new
  fresh : ∀ x ∈ new, x ∉ walk.entered

theorem coherent_start : Coherent g start := by
  refine ⟨?_, ?_, List.nodup_nil, ?_⟩
  · intro x hx
    cases hx
  · intro x hx
    cases hx
  · intro l x r h
    simp [start] at h

theorem Grows.refl (walk : Walk) : Grows walk walk [] :=
  ⟨by simp, by simp, by simp⟩

theorem Grows.trans {w₁ w₂ w₃ : Walk} {new₁ new₂ : List Nat} (h₁ : Grows w₁ w₂ new₁)
    (h₂ : Grows w₂ w₃ new₂) : Grows w₁ w₃ (new₁ ++ new₂) := by
  refine ⟨?_, ?_, ?_⟩
  · rw [h₂.finished, h₁.finished, List.append_assoc]
  · intro x
    rw [h₂.entered, h₁.entered, List.mem_append, or_assoc]
  · intro x hx hmem
    rcases List.mem_append.mp hx with hx | hx
    · exact h₁.fresh x hx hmem
    · exact h₂.fresh x hx ((h₁.entered x).mpr (Or.inl hmem))

theorem Grows.mem_finished {walk next : Walk} {new : List Nat} (h : Grows walk next new) {x : Nat} :
    x ∈ next.finished ↔ x ∈ walk.finished ∨ x ∈ new := by
  rw [h.finished, List.mem_append]

/-- What is open after a walk has gone on was open before. -/
theorem Grows.open_before {walk next : Walk} {new : List Nat} (h : Grows walk next new) {x : Nat}
    (hx : x ∈ next.entered) (hf : x ∉ next.finished) : x ∈ walk.entered ∧ x ∉ walk.finished := by
  rw [h.mem_finished, not_or] at hf
  rcases (h.entered x).mp hx with hx | hx
  · exact ⟨hx, hf.1⟩
  · exact absurd hx hf.2

theorem Grows.unseen_le {walk next : Walk} {new : List Nat} (h : Grows walk next new) :
    unseen g next ≤ unseen g walk := by
  refine Finset.card_le_card fun x hx => ?_
  rw [Finset.mem_filter] at hx ⊢
  exact ⟨hx.1, fun hmem => hx.2 ((h.entered x).mpr (Or.inl hmem))⟩

theorem unseen_enter_lt {walk : Walk} {node : Nat} (hn : node < g.size)
    (h : node ∉ walk.entered) : unseen g (walk.enter node) < unseen g walk := by
  refine Finset.card_lt_card (Finset.ssubset_iff_subset_ne.mpr ⟨fun x hx => ?_, fun heq => ?_⟩)
  · rw [Finset.mem_filter] at hx ⊢
    exact ⟨hx.1, fun hmem => hx.2 (List.mem_cons_of_mem _ hmem)⟩
  · have hmem : node ∈ (Finset.range g.size).filter fun x => x ∉ walk.entered :=
      Finset.mem_filter.mpr ⟨Finset.mem_range.mpr hn, h⟩
    rw [← heq, Finset.mem_filter] at hmem
    exact hmem.2 List.mem_cons_self

theorem coherent_enter {walk : Walk} (h : Coherent g walk) (node : Nat) :
    Coherent g (walk.enter node) :=
  ⟨fun x hx => List.mem_cons_of_mem _ (h.entered x hx),
    fun x hx y hy => List.mem_cons_of_mem _ (h.closed x hx y hy), h.nodup, h.ordered⟩

/-- A node may finish once its successors have been entered and all open nodes lead to it. -/
theorem coherent_finish {walk : Walk} (h : Coherent g walk) {node : Nat}
    (hn : node ∈ walk.entered) (hf : node ∉ walk.finished)
    (hs : ∀ y, g.Edge node y → y ∈ walk.entered)
    (hopen : ∀ x ∈ walk.entered, x ∉ walk.finished → g.Leads x node) :
    Coherent g (walk.finish node) := by
  have hclosed : ∀ x ∈ walk.finished ++ [node], ∀ y, g.Edge x y → y ∈ walk.entered := by
    intro x hx y hy
    rcases List.mem_append.mp hx with hx | hx
    · exact h.closed x hx y hy
    · rw [List.mem_singleton.mp hx] at hy
      exact hs y hy
  refine ⟨?_, hclosed, ?_, ?_⟩
  · intro x hx
    rcases List.mem_append.mp hx with hx | hx
    · exact h.entered x hx
    · rw [List.mem_singleton.mp hx]
      exact hn
  · refine List.nodup_append.mpr ⟨h.nodup, List.nodup_singleton node, ?_⟩
    rintro a ha b hb rfl
    rw [List.mem_singleton.mp hb] at ha
    exact hf ha
  · intro l x r heq z hz y hy
    rcases List.eq_nil_or_concat r with rfl | ⟨r, last, rfl⟩
    · -- the node that finishes now: what is not finished is open
      have hl : l = walk.finished ∧ [x] = [node] := List.append_inj' heq.symm rfl
      obtain ⟨rfl, hx⟩ := hl
      obtain rfl : x = node := by simpa using hx
      by_cases hyf : y ∈ walk.finished
      · exact Or.inl (List.mem_append.mpr (Or.inl hyf))
      · exact Or.inr (hopen y (hclosed z hz y hy) hyf)
    · -- a node that had finished before: the nodes up to it are the same as they were
      have hr : walk.finished = l ++ x :: r := by
        have hcons : l ++ x :: (r ++ [last]) = (l ++ x :: r) ++ [last] := by simp
        rw [List.concat_eq_append, hcons] at heq
        exact (List.append_inj' heq rfl).1
      exact h.ordered l x r hr z hz y hy

end Walk

open Walk

/-- What a visit does, provided that its bound exceeds the number of nodes not entered and that
all open nodes lead to the node. -/
def Visits (g : Graph) (n : Nat) : Prop :=
  ∀ (node : Nat) (walk : Walk), node < g.size → Coherent g walk → unseen g walk < n →
    (∀ x ∈ walk.entered, x ∉ walk.finished → g.Leads x node) →
    ∃ new, Grows walk (g.visit n node walk) new ∧ Coherent g (g.visit n node walk)
      ∧ node ∈ (g.visit n node walk).entered ∧ ∀ x ∈ new, g.Leads node x

/-- Visits one after the other, of nodes to which all open nodes lead. -/
theorem foldl_visits {n : Nat} (hv : g.Visits n) (nodes : List Nat) (walk : Walk)
    (hn : ∀ node ∈ nodes, node < g.size) (hc : Coherent g walk) (hu : unseen g walk < n)
    (hopen : ∀ node ∈ nodes, ∀ x ∈ walk.entered, x ∉ walk.finished → g.Leads x node) :
    ∃ new, Grows walk (nodes.foldl (fun walk node => g.visit n node walk) walk) new
      ∧ Coherent g (nodes.foldl (fun walk node => g.visit n node walk) walk)
      ∧ (∀ node ∈ nodes, node ∈ (nodes.foldl (fun walk node => g.visit n node walk) walk).entered)
      ∧ ∀ x ∈ new, ∃ node ∈ nodes, g.Leads node x := by
  induction nodes generalizing walk with
  | nil => exact ⟨[], Grows.refl walk, hc, by simp, by simp⟩
  | cons node nodes ih =>
    obtain ⟨new₁, hg₁, hc₁, hm₁, hl₁⟩ := hv node walk (hn node List.mem_cons_self) hc hu
      (hopen node List.mem_cons_self)
    obtain ⟨new₂, hg₂, hc₂, hm₂, hl₂⟩ := ih (g.visit n node walk)
      (fun x hx => hn x (List.mem_cons_of_mem _ hx)) hc₁ (lt_of_le_of_lt hg₁.unseen_le hu)
      (fun next hnext x hx hf => by
        obtain ⟨hx', hf'⟩ := hg₁.open_before hx hf
        exact hopen next (List.mem_cons_of_mem _ hnext) x hx' hf')
    refine ⟨new₁ ++ new₂, hg₁.trans hg₂, hc₂, ?_, ?_⟩
    · intro x hx
      rcases List.mem_cons.mp hx with rfl | hx
      · exact (hg₂.entered x).mpr (Or.inl hm₁)
      · exact hm₂ x hx
    · intro x hx
      rcases List.mem_append.mp hx with hx | hx
      · exact ⟨node, List.mem_cons_self, hl₁ x hx⟩
      · obtain ⟨next, hnext, hlead⟩ := hl₂ x hx
        exact ⟨next, List.mem_cons_of_mem _ hnext, hlead⟩

/-- **Visits do what they should**, by induction on the bound. The node that is entered joins the
open ones, and they all lead to its successors. -/
theorem visits (hg : g.Bounded) (n : Nat) : g.Visits n := by
  induction n with
  | zero => exact fun _ _ _ _ hu => absurd hu (Nat.not_lt_zero _)
  | succ n ih =>
    intro node walk hn hc hu hopen
    by_cases hmem : node ∈ walk.entered
    · have hvisit : g.visit (n + 1) node walk = walk := by simp [visit, hmem]
      rw [hvisit]
      exact ⟨[], Grows.refl walk, hc, hmem, by simp⟩
    · have hvisit : g.visit (n + 1) node walk
          = ((g.successors node).foldl (fun walk next => g.visit n next walk)
              (walk.enter node)).finish node := by
        simp [visit, hmem]
      have hlt := unseen_enter_lt hn hmem
      -- the open nodes lead to this one, so they lead to its successors, as does the node itself
      obtain ⟨new, hg₁, hc₁, hm₁, hl₁⟩ := foldl_visits ih (g.successors node) (walk.enter node)
        (fun next hnext => hg node next hnext) (coherent_enter hc node) (by omega)
        (fun next hnext x hx hf => by
          rcases List.mem_cons.mp hx with rfl | hx
          · exact Relation.ReflTransGen.single hnext
          · exact (hopen x hx hf).tail hnext)
      rw [hvisit]
      generalize (g.successors node).foldl (fun walk next => g.visit n next walk)
        (walk.enter node) = w at hg₁ hc₁ hm₁
      have hself : node ∈ w.entered := (hg₁.entered node).mpr (Or.inl List.mem_cons_self)
      -- the node stays open while its successors are visited
      have hnot : node ∉ w.finished := by
        intro hf
        rcases hg₁.mem_finished.mp hf with hf | hf
        · exact hmem (hc.entered node hf)
        · exact hg₁.fresh node hf List.mem_cons_self
      refine ⟨new ++ [node], ⟨?_, ?_, ?_⟩, ?_, hself, ?_⟩
      · show w.finished ++ [node] = _
        rw [hg₁.finished, List.append_assoc]
        rfl
      · intro x
        show x ∈ w.entered ↔ _
        rw [hg₁.entered, List.mem_append, List.mem_singleton]
        show x ∈ node :: walk.entered ∨ _ ↔ _
        rw [List.mem_cons]
        tauto
      · intro x hx hin
        rcases List.mem_append.mp hx with hx | hx
        · exact hg₁.fresh x hx (List.mem_cons_of_mem _ hin)
        · rw [List.mem_singleton.mp hx] at hin
          exact hmem hin
      · refine coherent_finish hc₁ hself hnot hm₁ fun x hx hf => ?_
        obtain ⟨hx', hf'⟩ := hg₁.open_before hx hf
        rcases List.mem_cons.mp hx' with rfl | hx'
        · exact Relation.ReflTransGen.refl
        · exact hopen x hx' hf'
      · intro x hx
        rcases List.mem_append.mp hx with hx | hx
        · obtain ⟨next, hnext, hlead⟩ := hl₁ x hx
          exact Relation.ReflTransGen.head hnext hlead
        · rw [List.mem_singleton.mp hx]
          exact Relation.ReflTransGen.refl

theorem unseen_start_lt : unseen g start < g.size + 1 := by
  have h : unseen g start ≤ (Finset.range g.size).card := Finset.card_filter_le _ _
  rw [Finset.card_range] at h
  omega

/-! ## Reachability -/

/-- **The nodes that a walk from one node enters are those that the node leads to.** -/
theorem mem_reached (hg : g.Bounded) {a b : Nat} (ha : a < g.size) :
    b ∈ g.reached a ↔ g.Leads a b := by
  obtain ⟨new, hgrow, hc, hself, hlead⟩ := visits hg (g.size + 1) a start ha coherent_start
    unseen_start_lt (fun x hx => by cases hx)
  have hnew : ∀ x, x ∈ g.reached a ↔ x ∈ new := by
    intro x
    rw [reached, hgrow.entered]
    simp [start]
  constructor
  · intro hb
    exact hlead b ((hnew b).mp hb)
  · intro hb
    induction hb with
    | refl => exact hself
    | tail _ hedge ih =>
      -- the walk started with nothing open, so all that it has entered has finished
      have hfin := hgrow.mem_finished.mpr (Or.inr ((hnew _).mp ih))
      exact hc.closed _ hfin _ hedge

theorem reaches_reachTable (hg : g.Bounded) {a b : Nat} (ha : a < g.size) :
    reaches g.reachTable a b = true ↔ g.Leads a b := by
  have hget : (g.reachTable)[a]? = some (g.reached a) := by
    simp [reachTable, ha]
  rw [reaches, hget, Option.getD_some, List.contains_iff_mem, mem_reached hg ha]

theorem connected_reachTable (hg : g.Bounded) {a b : Nat} (ha : a < g.size) (hb : b < g.size) :
    connected g.reachTable a b = true ↔ g.Mutual a b := by
  rw [connected, Bool.and_eq_true, reaches_reachTable hg ha, reaches_reachTable hg hb, Mutual]

theorem mem_componentOf (hg : g.Bounded) {a b : Nat} (ha : a < g.size) :
    b ∈ g.componentOf g.reachTable a ↔ b < g.size ∧ g.Mutual a b := by
  rw [componentOf, List.mem_filter, List.mem_range]
  exact and_congr_right fun hb => connected_reachTable hg ha hb

/-! ## The order of finishing -/

/-- The walk from every node finishes all nodes and nothing else. -/
theorem fullWalk_spec (hg : g.Bounded) :
    Coherent g g.fullWalk ∧ (∀ x, x ∈ g.fullWalk.entered ↔ x ∈ g.fullWalk.finished)
      ∧ ∀ x, x ∈ g.fullWalk.finished ↔ x < g.size := by
  obtain ⟨new, hgrow, hc, hmem, hlead⟩ := foldl_visits (visits hg (g.size + 1))
    (List.range g.size) start (fun x hx => List.mem_range.mp hx) coherent_start unseen_start_lt
    (fun _ _ x hx => by cases hx)
  have hiff : ∀ x, x ∈ g.fullWalk.entered ↔ x ∈ g.fullWalk.finished := by
    intro x
    rw [fullWalk, hgrow.entered, hgrow.mem_finished]
    simp [start]
  refine ⟨hc, hiff, fun x => ⟨fun hx => ?_, fun hx => ?_⟩⟩
  · rcases hgrow.mem_finished.mp hx with hx | hx
    · cases hx
    · obtain ⟨node, hnode, h⟩ := hlead x hx
      exact h.lt hg (List.mem_range.mp hnode)
  · exact (hiff x).mp (hmem x (List.mem_range.mpr hx))

/-- If no node of its component finishes after it, a node leads only to nodes that have finished
before, and to itself. -/
theorem leads_before (hg : g.Bounded) {l r : List Nat} {x b : Nat}
    (hsplit : g.fullWalk.finished = l ++ x :: r) (hlast : ∀ y ∈ r, ¬ g.Mutual x y)
    (h : g.Leads x b) : b ∈ l ++ [x] := by
  obtain ⟨hc, hiff, -⟩ := fullWalk_spec hg
  induction h with
  | refl => exact List.mem_append.mpr (Or.inr List.mem_cons_self)
  | @tail z y hz hedge ih =>
    -- what finishes after the node and leads back to it would be in its component
    rcases hc.ordered l x r hsplit z ih y hedge with hy | hback
    · exact hy
    · have hzf : z ∈ g.fullWalk.finished := by
        rw [hsplit]
        rcases List.mem_append.mp ih with hz | hz
        · exact List.mem_append.mpr (Or.inl hz)
        · rw [List.mem_singleton.mp hz]
          exact List.mem_append.mpr (Or.inr List.mem_cons_self)
      have hy : y ∈ l ++ x :: r := hsplit ▸ (hiff y).mp (hc.closed z hzf y hedge)
      rcases List.mem_append.mp hy with hy | hy
      · exact List.mem_append.mpr (Or.inl hy)
      · rcases List.mem_cons.mp hy with rfl | hy
        · exact List.mem_append.mpr (Or.inr List.mem_cons_self)
        · exact absurd ⟨hz.tail hedge, hback⟩ (hlast y hy)

/-! ## Components -/

theorem lastOfEach_subset (table : Array (List Nat)) (nodes : List Nat) :
    ∀ x ∈ lastOfEach table nodes, x ∈ nodes := by
  induction nodes with
  | nil => simp [lastOfEach]
  | cons node later ih =>
    intro x hx
    rw [lastOfEach] at hx
    split at hx
    · exact List.mem_cons_of_mem _ (ih x hx)
    · rcases List.mem_cons.mp hx with rfl | hx
      · exact List.mem_cons_self
      · exact List.mem_cons_of_mem _ (ih x hx)

/-- Every node of a list is connected to one that stands for its component. -/
theorem exists_lastOfEach (hg : g.Bounded) (nodes : List Nat) (hn : ∀ x ∈ nodes, x < g.size) :
    ∀ x ∈ nodes, ∃ y ∈ lastOfEach g.reachTable nodes, g.Mutual y x := by
  induction nodes with
  | nil => simp
  | cons node later ih =>
    have hlater : ∀ x ∈ later, x < g.size := fun x hx => hn x (List.mem_cons_of_mem _ hx)
    intro x hx
    rw [lastOfEach]
    rcases List.mem_cons.mp hx with rfl | hx
    · split
      · rename_i hany
        obtain ⟨z, hz, hconn⟩ := List.any_eq_true.mp hany
        obtain ⟨y, hy, hyz⟩ := ih hlater z hz
        have hxz := (connected_reachTable hg (hn x List.mem_cons_self) (hlater z hz)).mp hconn
        exact ⟨y, hy, hyz.1.trans hxz.2, hxz.1.trans hyz.2⟩
      · exact ⟨x, List.mem_cons_self, .refl, .refl⟩
    · obtain ⟨y, hy, hyx⟩ := ih hlater x hx
      split
      · exact ⟨y, hy, hyx⟩
      · exact ⟨y, List.mem_cons_of_mem _ hy, hyx⟩

/-- No node that stands for a component leads to a later one that does. -/
theorem pairwise_lastOfEach (hg : g.Bounded) (before nodes : List Nat)
    (hsplit : g.fullWalk.finished = before ++ nodes) :
    (lastOfEach g.reachTable nodes).Pairwise fun a b => ¬ g.Leads a b := by
  obtain ⟨hc, -, hlt⟩ := fullWalk_spec hg
  induction nodes generalizing before with
  | nil => exact List.Pairwise.nil
  | cons node later ih =>
    have hrest := ih (before ++ [node]) (by rw [hsplit]; simp)
    rw [lastOfEach]
    split
    · exact hrest
    · rename_i hany
      -- the node is the last of its component, so that it leads only to nodes before it
      refine List.pairwise_cons.mpr ⟨fun b hb hlead => ?_, hrest⟩
      have hsize : ∀ x ∈ node :: later, x < g.size := fun x hx =>
        (hlt x).mp (by rw [hsplit]; exact List.mem_append.mpr (Or.inr hx))
      have hlast : ∀ y ∈ later, ¬ g.Mutual node y := by
        intro y hy hmut
        refine hany (List.any_eq_true.mpr ⟨y, hy, ?_⟩)
        exact (connected_reachTable hg (hsize node List.mem_cons_self)
          (hsize y (List.mem_cons_of_mem _ hy))).mpr hmut
      have hb' := lastOfEach_subset _ _ b hb
      have hbefore := leads_before hg hsplit hlast hlead
      have hnodup : (before ++ node :: later).Nodup := hsplit ▸ hc.nodup
      have hdisj : (before ++ [node]).Disjoint later := by
        rw [show before ++ node :: later = (before ++ [node]) ++ later by simp] at hnodup
        exact List.disjoint_of_nodup_append hnodup
      exact hdisj hbefore hb'

/-- A component is the set of nodes connected to one of them. -/
theorem exists_of_mem_components (hg : g.Bounded) {component : List Nat}
    (h : component ∈ g.components) :
    ∃ a, a < g.size ∧ component = g.componentOf g.reachTable a
      ∧ ∀ b, b ∈ component ↔ b < g.size ∧ g.Mutual a b := by
  obtain ⟨-, -, hlt⟩ := fullWalk_spec hg
  obtain ⟨a, ha, rfl⟩ := List.mem_map.mp h
  have hsize := (hlt a).mp (lastOfEach_subset _ _ a ha)
  exact ⟨a, hsize, rfl, fun b => mem_componentOf hg hsize⟩

/-- **The members of a component are those that one of them leads to and that lead back.** -/
theorem mem_component_iff (hg : g.Bounded) {component : List Nat} (h : component ∈ g.components)
    {a b : Nat} (ha : a ∈ component) : b ∈ component ↔ b < g.size ∧ g.Mutual a b := by
  obtain ⟨x, -, -, hx⟩ := exists_of_mem_components hg h
  obtain ⟨-, hxa⟩ := (hx a).mp ha
  rw [hx b]
  refine and_congr_right fun _ => ⟨fun hxb => ?_, fun hab => ?_⟩
  · exact ⟨hxa.2.trans hxb.1, hxb.2.trans hxa.1⟩
  · exact ⟨hxa.1.trans hab.1, hab.2.trans hxa.2⟩

theorem component_ne_nil (hg : g.Bounded) {component : List Nat} (h : component ∈ g.components) :
    component ≠ [] := by
  obtain ⟨a, ha, -, hmem⟩ := exists_of_mem_components hg h
  exact List.ne_nil_of_mem ((hmem a).mpr ⟨ha, .refl, .refl⟩)

/-- The members of a component ascend. -/
theorem pairwise_component (hg : g.Bounded) {component : List Nat} (h : component ∈ g.components) :
    component.Pairwise (· < ·) := by
  obtain ⟨a, -, rfl, -⟩ := exists_of_mem_components hg h
  exact List.pairwise_lt_range.filter _

/-- Every node has a component. -/
theorem exists_component (hg : g.Bounded) {a : Nat} (ha : a < g.size) :
    ∃ component ∈ g.components, a ∈ component := by
  obtain ⟨-, -, hlt⟩ := fullWalk_spec hg
  obtain ⟨y, hy, hya⟩ := exists_lastOfEach hg g.fullWalk.finished (fun x hx => (hlt x).mp hx) a
    ((hlt a).mpr ha)
  have hysize := (hlt y).mp (lastOfEach_subset _ _ y hy)
  exact ⟨_, List.mem_map.mpr ⟨y, hy, rfl⟩, (mem_componentOf hg hysize).mpr ⟨ha, hya⟩⟩

/-- **Components come after those that they lead to**: nothing leads from an earlier one into a
later one. In particular no node is in two of them. -/
theorem pairwise_components (hg : g.Bounded) :
    g.components.Pairwise fun c d => ∀ a ∈ c, ∀ b ∈ d, ¬ g.Leads a b := by
  obtain ⟨-, -, hlt⟩ := fullWalk_spec hg
  have hsize : ∀ x ∈ lastOfEach g.reachTable g.fullWalk.finished, x < g.size := fun x hx =>
    (hlt x).mp (lastOfEach_subset _ _ x hx)
  refine List.pairwise_map.mpr ?_
  refine (pairwise_lastOfEach hg [] g.fullWalk.finished rfl).imp_of_mem ?_
  intro x y hx hy hxy a ha b hb hab
  obtain ⟨-, hxa⟩ := (mem_componentOf hg (hsize x hx)).mp ha
  obtain ⟨-, hyb⟩ := (mem_componentOf hg (hsize y hy)).mp hb
  exact hxy ((hxa.1.trans hab).trans hyb.2)

end ConstNarrow.Graph
