/-
**The way of a constant through a check.**

In the check of a forest, every group is resolved in its turn. A constant that is not erroneous is
alone in its group: its value is evaluated, which gives the inferred type; the type is settled; and the
settled type is committed to the value. Earlier groups have no part in this, and later ones leave the
value as it is. So what the tables hold for the value at the end can be said in terms of the type that
was inferred for it, which is gone by then.
-/
import ConstNarrow.Proofs.Reports

set_option autoImplicit false

namespace ConstNarrow

open Checker

/-- **The way of a constant through a check** that ends in a state `s`, with a final type. Earlier
groups are resolved first. Then the value is evaluated, and its type is settled, which ends with its
commitment; only the journal has changed in between. The later groups come last. -/
structure Passage (p : Program) (id : ConstId) (constant : Constant) (ty : Ty) (s : Checker) where
  done : List ConstGroup
  group : ConstGroup
  rest : List ConstGroup
  before : Checker
  inferred : Ty
  evaluated : Checker
  settled : Checker
  committed : Checker
  groups : p.source.groups = done ++ group :: rest
  members : group.members = [id]
  single : group.isCyclic = false
  enters : (done.forM (resolveGroup p (resolve p))).run (.begin p) = some ((), before)
  evaluates : (evaluate p constant.value ⟨constant.declared, constant.scope⟩).run
    (before.enter id constant.name) = some (inferred, evaluated)
  settles : (settle p constant.value constant.declared inferred).run evaluated = some (ty, committed)
  journal : ∃ j, settled = { evaluated with journal := j }
  commits : (commit p constant.value ty).run settled = some ((), committed)
  leaves : (rest.forM (resolveGroup p (resolve p))).run (committed.leave id constant.name ty)
    = some ((), s)

section Runs

variable {p : Program} {id : ConstId} {constant : Constant} {ty inferred : Ty}
variable {s before evaluated committed : Checker} {done rest : List ConstGroup} {group : ConstGroup}

/-- No constant is in a later group as well. -/
theorem not_mem_of_mem_rest (hnames : p.source.NamesExist)
    (hgroups : p.source.groups = done ++ group :: rest) (hid : id ∈ group.members) :
    ∀ other ∈ rest, id ∉ other.members := by
  intro other hother hmem
  have hpair := Module.pairwise_groups hnames
  rw [hgroups, List.pairwise_append] at hpair
  exact (List.pairwise_cons.mp hpair.2.1).1 other hother id hid id hmem .refl

/-- Evaluation and settling are what resolves the group of a constant. -/
theorem run_resolveGroup_of_settle (hmembers : group.members = [id]) (hsingle : group.isCyclic = false)
    (hnone : before.status.get? id = none) (hconstant : p.source.constants[id]? = some constant)
    (hevaluate : (evaluate p constant.value ⟨constant.declared, constant.scope⟩).run
      (before.enter id constant.name) = some (inferred, evaluated))
    (hsettle : (settle p constant.value constant.declared inferred).run evaluated
      = some (ty, committed)) :
    (resolveGroup p (resolve p) group).run before = some ((), committed.leave id constant.name ty) := by
  have htyping : (typing p (evaluate p) constant).run (before.enter id constant.name)
      = some (ty, committed) := (run_bind_some hevaluate).trans hsettle
  exact run_resolveGroup_single hsingle hmembers (run_resolveWith hnone hconstant htyping)

/-- A check that is split at a group. -/
theorem Program.run_split {t : Checker} (hgroups : p.source.groups = done ++ group :: rest)
    (hdone : (done.forM (resolveGroup p (resolve p))).run (.begin p) = some ((), before))
    (hgroup : (resolveGroup p (resolve p) group).run before = some ((), t))
    (hrest : (rest.forM (resolveGroup p (resolve p))).run t = some ((), s)) : p.run = some s := by
  have hsplit : (done ++ group :: rest).forM (resolveGroup p (resolve p))
      = done.forM (resolveGroup p (resolve p))
        >>= fun _ => (group :: rest).forM (resolveGroup p (resolve p)) := List.forM_append
  refine Program.run_eq ?_
  rw [hgroups, hsplit, run_bind_some hdone]
  exact (run_bind_some hgroup).trans hrest

/-- **The later groups leave a constant as it is**, and the expressions of its value. -/
theorem Advance.exists_rest {t : Checker} (h : Advance p false (done ++ [group]) t)
    (hp : p.Regular false) (hgroups : p.source.groups = done ++ group :: rest)
    (hid : id ∈ group.members) :
    ∃ s, (rest.forM (resolveGroup p (resolve p))).run t = some ((), s)
      ∧ s.status.get? id = t.status.get? id
      ∧ ∀ constant, p.source.constants[id]? = some constant → Agrees p.source constant.value t s := by
  have hsplit : p.source.groups = (done ++ [group]) ++ (rest ++ []) := by
    rw [hgroups, List.append_nil, List.append_assoc, List.singleton_append]
  obtain ⟨s, hrest, -, hspares⟩ := h.forM hp hsplit
  exact ⟨s, hrest, hspares id (not_mem_of_mem_rest hp.names hgroups hid)⟩

end Runs

section Passages

variable {p : Program} {id : ConstId} {constant : Constant} {ty : Ty} {s : Checker}

/-- **A constant that is not erroneous has its way through the check.** -/
theorem exists_passage (hp : p.Regular false) (hrun : p.run = some s)
    (hconstant : p.source.constants[id]? = some constant)
    (hty : s.finish.constTypes.get? id = some ty) (herror : ty.isError = false) :
    Nonempty (Passage p id constant ty s) := by
  obtain ⟨hlt, -⟩ := Array.getElem?_eq_some_iff.mp hconstant
  obtain ⟨group, hgroup, hid⟩ := Module.exists_group hp.names hlt
  obtain ⟨done, rest, hgroups⟩ := List.append_of_mem hgroup
  have htree := hp.forest.tree (Array.mem_of_getElem? hconstant)
  obtain ⟨before, hdone, hadvance, -⟩ := (advance_begin p false).forM hp hgroups
  -- later groups leave the constant as it is
  have hlater : ∀ {t : Checker}, (resolveGroup p (resolve p) group).run before = some ((), t) →
      Advance p false (done ++ [group]) t →
      (rest.forM (resolveGroup p (resolve p))).run t = some ((), s)
        ∧ s.status.get? id = t.status.get? id := by
    intro t hgroupRun hadvance'
    obtain ⟨_, hrest, hstatus, -⟩ := hadvance'.exists_rest hp hgroups hid
    cases hrun.symm.trans (Program.run_split hgroups hdone hgroupRun hrest)
    exact ⟨hrest, hstatus⟩
  cases hcyclic : group.isCyclic with
  | true =>
    obtain ⟨t, hgroupRun, hadvance', -, hcycle⟩ := hadvance.cyclic hp hgroups hcyclic
    have hstatus := (hlater hgroupRun hadvance').2.trans (hcycle id hid)
    cases hty.symm.trans (constTypes_get? s hstatus)
    cases herror
  | false =>
    obtain ⟨other, hmembers⟩ := Module.members_eq_singleton hp.names hgroup hcyclic
    obtain rfl : id = other := by
      rw [hmembers] at hid
      exact List.mem_singleton.mp hid
    obtain ⟨hnone, hready⟩ := hadvance.ready hp hgroups hcyclic hid hconstant
    obtain ⟨inferred, hevaluates⟩ := exists_evaluate htree
      (hadvance.sources hp constant.scope constant.value) constant.declared
    obtain ⟨_, evaluated, hevaluate, rfl, -, -, hentry, hheld⟩ := hevaluates _ hready
    obtain ⟨final, committed, hsettle, -⟩ := ends_settle htree hheld hentry
      (hp.declared constant (Array.mem_of_getElem? hconstant))
    have hgroupRun := run_resolveGroup_of_settle hmembers hcyclic hnone hconstant hevaluate hsettle
    obtain ⟨t, hsingle, hadvance', -⟩ := hadvance.single hp hgroups hcyclic
    cases hgroupRun.symm.trans hsingle
    obtain ⟨hrest, hstatus⟩ := hlater hgroupRun hadvance'
    rw [status_leave, if_pos rfl] at hstatus
    cases hty.symm.trans (constTypes_get? s hstatus)
    obtain ⟨k, hcommit⟩ := exists_commit hsettle herror
    exact ⟨⟨done, group, rest, before, _, evaluated, _, committed, hgroups, hmembers, hcyclic, hdone,
      hevaluate, hsettle, ⟨k, rfl⟩, hcommit, hrest⟩⟩

/-- **What is known on the way of a constant.** The names in its value stand for types without a
choice; the inferred type is held for the value once it is evaluated; the final type is one that the
inferred type may be settled to, and the value has taken it. Commitment touches what it reaches, and
the value stays as it is after the constant is left. -/
structure Passage.Course (w : Passage p id constant ty s) : Prop where
  firm : Firm p w.before.given constant.scope constant.value
  held : Held p w.before.given constant.scope w.evaluated constant.declared constant.value w.inferred
  entry : w.evaluated.exprTypes.get? constant.value = some w.inferred
  settles : Settles false w.inferred ty
  touches : Touches (p.source.GuidedWithin constant.value) w.evaluated w.committed
  taken : Taken p w.evaluated constant.value ty w.committed
  kept : Agrees p.source constant.value w.committed s

/-- What was settled to a type that is not erroneous was not erroneous either. -/
theorem Passage.Course.isError {w : Passage p id constant ty s} (h : w.Course)
    (herror : ty.isError = false) : w.inferred.isError = false :=
  h.settles.isError herror

/-- **Every way of a constant takes this course**, as a check has no choice. -/
theorem Passage.course (w : Passage p id constant ty s) (hp : p.Regular false)
    (hconstant : p.source.constants[id]? = some constant) (herror : ty.isError = false) :
    w.Course := by
  have htree := hp.forest.tree (Array.mem_of_getElem? hconstant)
  have hid : id ∈ w.group.members := by rw [w.members]; exact List.mem_singleton_self id
  obtain ⟨_, hdone, hadvance, -⟩ := (advance_begin p false).forM hp w.groups
  cases hdone.symm.trans w.enters
  have hfirm := hadvance.firm hp rfl constant.scope constant.value
  obtain ⟨hnone, hready⟩ := hadvance.ready hp w.groups w.single hid hconstant
  obtain ⟨_, hevaluates⟩ := exists_evaluate htree
    (hadvance.sources hp constant.scope constant.value) constant.declared
  obtain ⟨_, _, hevaluate, rfl, -, -, hentry, hheld⟩ := hevaluates _ hready
  cases hevaluate.symm.trans w.evaluates
  obtain ⟨_, _, hsettle, hconcluded⟩ := ends_settle htree hheld hentry
    (hp.declared constant (Array.mem_of_getElem? hconstant))
  cases hsettle.symm.trans w.settles
  have hsettles : Settles false w.inferred ty :=
    hconcluded.settles.resolve_left fun heq => (by rw [heq] at herror; cases herror)
  refine ⟨hfirm, hheld, hentry, hsettles, hconcluded.touches,
    (hconcluded.achieved herror rfl hfirm).2, ?_⟩
  -- the later groups have other constants
  obtain ⟨_, hsingle, hadvance', -⟩ := hadvance.single hp w.groups w.single
  cases hsingle.symm.trans
    (run_resolveGroup_of_settle w.members w.single hnone hconstant w.evaluates w.settles)
  obtain ⟨_, hrest, -, hkept⟩ := hadvance'.exists_rest hp w.groups hid
  cases hrest.symm.trans w.leaves
  have hleft := hkept constant hconstant
  exact ⟨hleft.types, hleft.signatures⟩

end Passages

end ConstNarrow
