/-
**Resolving one constant**: what is done around its evaluation, and the evaluation itself.

Resolution enters a constant, types its value, and leaves it with a final type. Entering and leaving
are plain changes of the state. What is typed in between is the same for every way in which names of
constants are given a type, so it has the referrer as a parameter.
-/
import ConstNarrow.Checker.Resolve
import ConstNarrow.Proofs.Dependency
import ConstNarrow.Proofs.Evaluation

set_option autoImplicit false

namespace ConstNarrow

open Checker

/-- The journal with what is said about a constant and its final type. -/
def Journal.concluded (j : Journal) (name : String) (ty : Ty) : Journal :=
  ((if (Value.ofTy? ty).isSome || ty.isError then j else j.note (.noSingleValue name ty))).note
    (.resolved name ty)

theorem Journal.calm_concluded (j : Journal) (name : String) (ty : Ty) :
    j.Calm (j.concluded name ty) := by
  unfold concluded
  split
  · exact calm_note j fun _ h => (by cases h)
  · exact (calm_note j fun _ h => (by cases h)).trans (calm_note _ fun _ h => (by cases h))

theorem Journal.grows_concluded (j : Journal) (name : String) (ty : Ty) :
    j.Grows (j.concluded name ty) :=
  (j.calm_concluded name ty).toGrows

/-- Evaluation may nest as deep as any expression does. -/
theorem Module.Founded.height_lt_bound {p : Program} {id : ExprId} (h : p.source.Founded id) :
    p.source.height id < nestingBound p := by
  have hle := h.height_le
  unfold nestingBound
  have hmul : p.source.exprs.size + 1 ≤ (p.source.constants.size + 1) * (p.source.exprs.size + 1) :=
    Nat.le_mul_of_pos_left _ (Nat.succ_pos _)
  omega

namespace Checker

/-- The state in which a constant begins to be resolved. -/
def enter (s : Checker) (id : ConstId) (name : String) : Checker :=
  { s with status := s.status.insert id .resolving, journal := s.journal.note (.resolving name) }

/-- The state in which a constant is resolved. -/
def leave (s : Checker) (id : ConstId) (name : String) (ty : Ty) : Checker :=
  { s with
    status := s.status.insert id (.resolved ty)
    values := (Value.ofTy? ty).elim s.values (s.values.insert id)
    journal := s.journal.concluded name ty }

/-- The final type of a constant, with an evaluation for its value. -/
def typing (p : Program) (eval : Evaluator) (constant : Constant) : CheckM Ty := do
  let inferred ← eval constant.value ⟨constant.declared, constant.scope⟩
  settle p constant.value constant.declared inferred

/-- Evaluation where names of constants are given a type by a referrer, down to a depth. -/
def evaluateUsing (p : Program) (refer : Referrer) : Nat → Evaluator
  | 0, _, _ => exhausted
  | n + 1, id, frame => evalStep p refer (evaluateUsing p refer n) id frame

variable {p : Program} {eval : Evaluator} {s t : Checker} {id : ConstId} {ty : Ty}

theorem status_enter (s : Checker) (c : ConstId) (name : String) (x : ConstId) :
    (s.enter c name).status.get? x = if x = c then some .resolving else s.status.get? x :=
  Table.get?_insert _ _ _ _

theorem status_leave (s : Checker) (c : ConstId) (name : String) (ty : Ty) (x : ConstId) :
    (s.leave c name ty).status.get? x = if x = c then some (.resolved ty) else s.status.get? x :=
  Table.get?_insert _ _ _ _

/-- A constant that is entered and left is resolved, and no other constant is touched if nothing in
between touches one. -/
theorem status_leave_enter (name : String) (hstatus : t.status = (s.enter id name).status)
    (x : ConstId) : (t.leave id name ty).status.get? x
      = if x = id then some (.resolved ty) else s.status.get? x := by
  rw [status_leave, hstatus]
  split
  · rfl
  · rename_i hne
    rw [status_enter, if_neg hne]

theorem values_leave (s : Checker) (id : ConstId) (name : String) (ty : Ty) (other : ConstId) :
    (s.leave id name ty).values.get? other
      = if other = id then (Value.ofTy? ty).or (s.values.get? id) else s.values.get? other := by
  unfold leave
  cases Value.ofTy? ty with
  | none =>
    split
    · rename_i heq
      rw [heq]
      rfl
    · rfl
  | some value =>
    rw [Option.elim_some, Table.get?_insert, Option.some_or]

theorem run_bind_some {α β : Type} {m : CheckM α} {f : α → CheckM β} {a : α}
    (h : m.run s = some (a, t)) : (m >>= f).run s = (f a).run t := by
  rw [StateT.run_bind, h]
  rfl

/-- **A constant that nothing has asked for is entered, typed and left.** -/
theorem run_resolveWith {constant : Constant} (hstatus : s.status.get? id = none)
    (hconstant : p.source.constants[id]? = some constant)
    (htyping : (typing p eval constant).run (s.enter id constant.name) = some (ty, t)) :
    (resolveWith p eval id).run s = some (ty, t.leave id constant.name ty) := by
  rw [typing, StateT.run_bind] at htyping
  obtain ⟨⟨inferred, u⟩, heval, hsettle⟩ := Option.bind_eq_some_iff.mp htyping
  unfold resolveWith
  rw [StateT.run_bind, StateT.run_get, pure_bind]
  simp only [hstatus, hconstant]
  -- the start is noted, the status is set, and then the value is typed
  rw [run_bind_some (t := { s with journal := s.journal.note (.resolving constant.name) }) rfl,
    run_bind_some (t := s.enter id constant.name) rfl, run_bind_some heval, run_bind_some hsettle]
  unfold leave Journal.concluded
  cases Value.ofTy? ty with
  | some value => rfl
  | none =>
    dsimp only
    cases herror : ty.isError <;> rfl

/-- A constant that is resolved keeps its type, and nothing changes. -/
theorem run_resolveWith_resolved (hstatus : s.status.get? id = some (.resolved ty)) :
    (resolveWith p eval id).run s = some (ty, s) := by
  unfold resolveWith
  rw [StateT.run_bind, StateT.run_get, pure_bind]
  simp only [hstatus]
  rfl

theorem run_referConstant {target : ConstId} (eval : Evaluator) (e : ExprId)
    (h : s.status.get? target = some (.resolved ty)) :
    (referConstant p eval e target).run s = some (ty, s) := by
  unfold referConstant
  rw [StateT.run_bind, StateT.run_get, pure_bind]
  simp only [h]
  rfl

/-- A name whose constant is under way is an error. -/
theorem run_referConstant_resolving {target : ConstId} (eval : Evaluator) (e : ExprId)
    (h : s.status.get? target = some .resolving) :
    (referConstant p eval e target).run s
      = some (.error, { s with journal := s.journal.report (.error e (.selfReference
          (((p.source.constants[target]?).map Constant.name).getD ""))) }) := by
  unfold referConstant
  rw [StateT.run_bind, StateT.run_get, pure_bind]
  simp only [h]
  rfl

/-- A name whose constant nothing has asked for has it resolved, one level deeper. -/
theorem run_referConstant_new {target : ConstId} (e : ExprId) (h : s.status.get? target = none)
    (hdepth : s.depth < p.settings.maxDepth)
    (hrun : (resolveWith p eval target).run { s with depth := s.depth + 1 } = some (ty, t)) :
    (referConstant p eval e target).run s = some (ty, { t with depth := t.depth - 1 }) := by
  unfold referConstant
  rw [StateT.run_bind, StateT.run_get, pure_bind]
  simp only [h]
  rw [if_neg (Nat.not_le_of_lt hdepth), run_bind_some rfl, run_bind_some hrun]
  rfl

end Checker

namespace Simulation

variable {E : Journal → Prop} {p : Program} {D : Discipline E} (M : Simulation p D)
variable {P : Prop} {eval eval' : Evaluator}

/-- **Typing a constant keeps two runs in step**, if the evaluation of its value does. -/
theorem triple_typing (hacyclic : p.source.Acyclic) {constant : Constant}
    (hscope : constant.scope = M.scope) (hid : M.inside constant.value)
    (hdeclared : ∀ expected ∈ constant.declared, expected.everywhere D.declarable = true)
    (heval : M.Evaluates eval eval' constant.value) :
    M.Triple P (typing p eval constant) (typing p eval' constant)
      (D.Settled constant.declared (M.sound constant.value) (M.seen constant.value)) := by
  refine (heval ⟨constant.declared, constant.scope⟩ hscope).bind fun inferred => ?_
  exact (M.triple_settle hacyclic hid hdeclared inferred).weaken (fun h => h.2)

end Simulation

/-! ## Groups -/

variable {p : Program}

/-- The name of a constant. -/
def Module.constName (m : Module) (id : ConstId) : String :=
  ((m.constants[id]?).map Constant.name).getD ""

theorem run_resolveGroup_single {resolve : ConstId → CheckM Ty} {group : ConstGroup} {id : ConstId}
    {ty : Ty} {s t : Checker} (hcyclic : group.isCyclic = false) (hmembers : group.members = [id])
    (h : (resolve id).run s = some (ty, t)) :
    (resolveGroup p resolve group).run s = some ((), t) := by
  unfold resolveGroup
  rw [if_neg (by simp [hcyclic]), hmembers]
  show ((do let _ ← resolve id : CheckM Unit) >>= fun _ => pure ()).run s = _
  rw [run_bind_some (run_bind_some h)]
  rfl

theorem run_forM_setStatus (members : List ConstId) (status : Status) (s : Checker) :
    (members.forM fun id => setStatus id status).run s
      = some ((), { s with status := members.foldl (fun t id => t.insert id status) s.status }) := by
  induction members generalizing s with
  | nil => rfl
  | cons id members ih =>
    show ((setStatus id status) >>= fun _ => members.forM fun id => setStatus id status).run s = _
    rw [run_bind_some (t := { s with status := s.status.insert id status }) rfl, ih]
    rfl

theorem get?_foldl_insert {α : Type} (members : List ConstId) (value : α) (t : Table α)
    (id : ConstId) : (members.foldl (fun t id => t.insert id value) t).get? id
      = if id ∈ members then some value else t.get? id := by
  induction members generalizing t with
  | nil => simp
  | cons first members ih =>
    rw [List.foldl_cons, ih, Table.get?_insert]
    by_cases hfirst : id = first <;> by_cases hmem : id ∈ members <;> simp [hfirst, hmem]

theorem map_name_filterMap {m : Module} {members : List ConstId}
    (h : ∀ id ∈ members, id < m.constants.size) :
    (members.filterMap fun id => m.constants[id]?).map Constant.name = members.map m.constName := by
  induction members with
  | nil => rfl
  | cons id members ih =>
    obtain ⟨hfirst, hrest⟩ := List.forall_mem_cons.mp h
    have hget : m.constants[id]? = some m.constants[id] := Array.getElem?_eq_getElem hfirst
    rw [List.filterMap_cons_some hget, List.map_cons, List.map_cons, ih hrest, Module.constName, hget]
    rfl

/-- The state in which the constants of a cycle are rejected. -/
def Checker.reject (s : Checker) (members : List ConstId) (names : List String) (value : ExprId) :
    Checker :=
  { s with
    status := members.foldl (fun t id => t.insert id (.resolved .error)) s.status
    journal := (s.journal.note (.rejectingCycle names)).report (.error value (.constantCycle names)) }

/-- A cyclic group of which nothing has been touched is rejected as a whole. -/
theorem run_refuseCycle {members : List ConstId}
    (hlt : ∀ id ∈ members, id < p.source.constants.size) {first : Constant} {others : List Constant}
    (hfirst : members.filterMap (fun id => p.source.constants[id]?) = first :: others) {s : Checker}
    (hnone : ∀ id ∈ members, s.status.get? id = none) :
    (refuseCycle p members).run s
      = some ((), s.reject members (members.map p.source.constName) first.value) := by
  have hany : members.any s.status.contains = false :=
    List.any_eq_false.mpr fun id hid => by simp [Table.contains, hnone id hid]
  unfold refuseCycle
  rw [StateT.run_bind, StateT.run_get, pure_bind, hany, ← map_name_filterMap hlt]
  simp only [hfirst]
  rw [if_neg (by simp), run_bind_some rfl, run_bind_some (run_forM_setStatus _ _ _)]
  rfl

/-- A cyclic group of which a member has been met before is left as it is. -/
theorem run_refuseCycle_asked {members : List ConstId} {id : ConstId} (hid : id ∈ members)
    {s : Checker} (hasked : s.status.get? id ≠ none) :
    (refuseCycle p members).run s = some ((), s) := by
  have hany : members.any s.status.contains = true :=
    List.any_eq_true.mpr ⟨id, hid, Option.isSome_iff_ne_none.mpr hasked⟩
  unfold refuseCycle
  rw [StateT.run_bind, StateT.run_get, pure_bind, if_pos hany]
  rfl

theorem Module.exists_first_member {m : Module} (hnames : m.NamesExist) {group : ConstGroup}
    (hgroup : group ∈ m.groups) : ∃ first others,
    group.members.filterMap (fun id => m.constants[id]?) = first :: others := by
  obtain ⟨id, hid⟩ := List.exists_mem_of_ne_nil _ (Module.members_ne_nil hnames hgroup)
  have hget := Array.getElem?_eq_getElem (Module.lt_size_of_mem_group hnames hgroup hid)
  exact List.exists_cons_of_ne_nil (List.ne_nil_of_mem (List.mem_filterMap.mpr ⟨id, hid, hget⟩))

/-- The state in which the first group is resolved. -/
def Checker.begin (p : Program) : Checker :=
  { Checker.start with journal := Journal.empty.note p.source.groupingEvent }

/-- A check is what its groups come to, one after the other. -/
theorem Program.run_eq {p : Program} {s : Checker}
    (h : (p.source.groups.forM (resolveGroup p (resolve p))).run (.begin p) = some ((), s)) :
    p.run = some s := by
  have hall : (resolveAll p).run .start = some ((), s) := (run_bind_some (t := .begin p) rfl).trans h
  rw [Program.run, hall]
  rfl

theorem constTypes_get? (s : Checker) {id : ConstId} {ty : Ty}
    (h : s.status.get? id = some (.resolved ty)) : s.finish.constTypes.get? id = some ty := by
  rw [Checker.finish, Table.get?_filterMap, h]
  rfl

end ConstNarrow
