/-
**Checking a forest.**

In a forest every expression that is used stands in one place: it is a part of one other expression,
or the value of one constant. The check of a forest goes from tree to tree. Each value is evaluated,
its type is settled, and the type is committed to the same tree; the other trees are not touched. So
what holds of a tree when its constant is left holds at the end.

This is followed with declared types that hold no error, where all trees get committed, and with any
declared types, where still no violation is logged unless a record writes a computed key twice.
-/
import ConstNarrow.Proofs.FinalTypes
import ConstNarrow.Proofs.TreeCommit

set_option autoImplicit false

namespace ConstNarrow

open Checker

/-! ## Forests -/

namespace Module

variable {m : Module}

/-- Every expression that is used stands in one place. -/
structure Forest (m : Module) : Prop where
  nodup : ∀ e, m.Used e → (m.expr e).children.Nodup
  parent : ∀ a b e, m.Used a → m.Used b → m.Part a e → m.Part b e → a = b
  owner : ∀ (c d : ConstId) (first second : Constant), m.constants[c]? = some first →
    m.constants[d]? = some second → first.value = second.value → c = d
  root : ∀ a, m.Used a → ∀ constant ∈ m.constants, ¬ m.Part a constant.value

theorem Forest.tree (h : m.Forest) {constant : Constant} (hconstant : constant ∈ m.constants) :
    m.Tree constant.value where
  nodup := fun e he => h.nodup e ⟨constant, hconstant, he⟩
  parent := fun a b e ha hb => h.parent a b e ⟨constant, hconstant, ha⟩ ⟨constant, hconstant, hb⟩
  top := fun a ha => h.root a ⟨constant, hconstant, ha⟩ constant hconstant

/-- **The values of different constants have nothing in common.** -/
theorem Forest.separate (h : m.Forest) : m.Separate := by
  intro c d first second hc hd hne e he
  have hfirst := Array.mem_of_getElem? hc
  have hsecond := Array.mem_of_getElem? hd
  refine not_within_both (fun heq => hne (h.owner c d first second hc hd heq)) ?_ ?_ ?_ he
  · exact fun y z e hy hz => h.parent y z e ⟨first, hfirst, hy⟩ ⟨second, hsecond, hz⟩
  · exact fun z hz => h.root z ⟨second, hsecond, hz⟩ first hfirst
  · exact fun y hy => h.root y ⟨first, hfirst, hy⟩ second hsecond

/-- A module is a forest if it lists no expression twice, as a part or as a value. -/
theorem forest_of_nodup
    (h : (m.constants.toList.map Constant.value ++ m.exprs.toList.flatMap Expr.children).Nodup) :
    m.Forest := by
  obtain ⟨hvalues, hparts, hapart⟩ := List.nodup_append.mp h
  refine ⟨fun e _ => (parent_of_nodup hparts).1 e, fun a b e _ _ => (parent_of_nodup hparts).2 a b e,
    fun c d first second hc hd heq => ?_, fun a _ constant hconstant hpart => ?_⟩
  · obtain ⟨hlt, rfl⟩ := Array.getElem?_eq_some_iff.mp hc
    obtain ⟨hlt', rfl⟩ := Array.getElem?_eq_some_iff.mp hd
    refine (List.getElem?_inj (by simpa using hlt) hvalues).mp ?_
    simpa [hlt, hlt'] using heq
  · refine hapart _ (List.mem_map_of_mem (Array.mem_toList_iff.mpr hconstant)) _ ?_ rfl
    have hlt := hpart.lt_size
    rw [Part, expr, Array.getElem?_eq_getElem hlt, Option.getD_some] at hpart
    exact List.mem_flatMap.mpr ⟨_, Array.getElem_mem_toList hlt, hpart⟩

end Module

/-! ## Settling a value -/

section Settling

variable {p : Program} {given : ConstId → Ty} {scope : ScopeId} {lax : Bool} {s t : Checker}
variable {value : ExprId} {inferred : Ty}

theorem tells_anchored {v : Site → Validation Ty} {r : Except NarrowError Ty}
    (h : ∀ j, ∃ k, (v ⟨some value, p.settings.ambiguity⟩).run j = (r, k) ∧ j.Calm k) :
    Tells (anchored p value v) r := by
  intro s
  obtain ⟨k, hrun, hcalm⟩ := h s.journal
  exact ⟨k, hcalm, Simulation.run_anchored hrun⟩

/-- A type is what a value may be settled to. -/
def Settles (lax : Bool) (inferred ty : Ty) : Prop :=
  ty.Definite ∧ ty.Refines Singleton.Rereads lax inferred

/-- What comes of settling the type of a value that has been evaluated. -/
structure Concluded (p : Program) (given : ConstId → Ty) (scope : ScopeId) (lax : Bool) (s : Checker)
    (value : ExprId) (inferred ty : Ty) (t : Checker) : Prop where
  settles : ty = .error ∨ Settles lax inferred ty
  touches : Touches (p.source.GuidedWithin value) s t
  quiet : Distinct p.source s value → Quiet s t
  achieved : ty.isError = false → lax = false → Firm p given scope value →
    Committed p t value ∧ Taken p s value ty t

/-- What is validated or narrowed is then committed. The journal may have grown by then. -/
theorem ends_conclude (htree : p.source.Tree value) {expected : Option Ty}
    (hheld : Held p given scope s expected value inferred) (hok : inferred.isError = false)
    (hentry : s.exprTypes.get? value = some inferred) {result : Except NarrowError Ty}
    (hresult : ∀ ty, result = .ok ty → Settles lax inferred ty) {j : Journal}
    (hj : s.journal.Calm j) :
    Ends (match result with
      | .error _ => pure .error
      | .ok ty => do
        unless ty.isError do commit p value ty
        pure ty) { s with journal := j } fun ty t => Concluded p given scope lax s value inferred ty t := by
  have hnothing : Touches (p.source.GuidedWithin value) s { s with journal := j } :=
    touches_journal _ s j
  cases result with
  | error e =>
    exact .pure ⟨Or.inl rfl, hnothing, fun _ => hj.violations, fun h => (by cases h)⟩
  | ok ty =>
    have hsettles := hresult ty rfl
    cases herror : ty.isError with
    | true =>
      dsimp only
      rw [herror]
      refine .pure ⟨Or.inr hsettles, hnothing, fun _ => hj.violations, fun h => ?_⟩
      rw [herror] at h
      cases h
    | false =>
      dsimp only
      rw [herror]
      -- what was made for the inferred type is made for the value
      have haims : Aims p given scope lax { s with journal := j } value ty :=
        (hheld.aims hok hentry hsettles.1 (hsettles.2.mono (fun _ _ h => h.domain) fun h => h)).agrees
          ⟨fun _ _ => rfl, fun _ _ => rfl⟩
      have hcommits : Commits p given scope lax (commit p) value := commits_commit htree
      refine (hcommits ty { s with journal := j }).bind fun _ t houtcome => ?_
      refine .pure ⟨Or.inr hsettles, hnothing.trans houtcome.touches, fun hdistinct => ?_,
        fun _ hlax hfirm => ?_⟩
      · have hquiet : Quiet s { s with journal := j } := hj.violations
        exact hquiet.trans (houtcome.quiet haims hdistinct)
      · obtain ⟨hcommitted, htaken⟩ := houtcome.achieved haims hlax hfirm
        exact ⟨hcommitted, htaken.chosen, htaken.stays, htaken.whole⟩

/-- **The type of a value is settled**, and committed unless it is erroneous. -/
theorem ends_settle (htree : p.source.Tree value) {expected : Option Ty}
    (hheld : Held p given scope s expected value inferred)
    (hentry : s.exprTypes.get? value = some inferred) {declared : Option Ty}
    (hdeclared : ∀ ty ∈ declared, ty.everywhere (fun part => lax || part.isNoError) = true) :
    Ends (settle p value declared inferred) s fun ty t =>
      Concluded p given scope lax s value inferred ty t := by
  unfold settle
  cases hok : inferred.isError with
  | true =>
    exact .pure ⟨Or.inl rfl, .refl _ s, fun _ => .refl s, fun h => (by cases h)⟩
  | false =>
    rw [if_neg Bool.false_ne_true]
    have hinferred := hheld.isOperand.tentative
    cases declared with
    | none =>
      have hsettles : ∀ ty, (.ok inferred.narrowed : Except NarrowError Ty) = .ok ty →
          Settles lax inferred ty := by
        rintro _ ⟨⟩
        obtain ⟨hdefinite, hrefines⟩ := hinferred.narrowed
        exact ⟨hdefinite, hrefines.mono (fun _ _ h => h) fun h => (by cases h)⟩
      exact (Tells.narrow inferred).ends_bind fun j hj =>
        ends_conclude htree hheld hok hentry hsettles hj
    | some expected =>
      obtain ⟨r, hr⟩ := (Review.refining lax).yields_validate ⟨some value, p.settings.ambiguity⟩
        expected inferred
      have hanchored : Tells (anchored p value fun site => validate site expected inferred) r := by
        refine tells_anchored fun j => ?_
        obtain ⟨k, hrun, hcalm, -⟩ := hr j
        exact ⟨k, hrun, hcalm⟩
      have hsettles : ∀ ty, r = .ok ty → Settles lax inferred ty := by
        intro ty hty
        obtain ⟨k, -, -, -, hmeets⟩ := hr s.journal
        exact (hmeets (Or.inr ⟨hinferred, hdeclared expected rfl⟩) ty hty).resolve_left fun h => h
      -- a mismatch is reported here, and anything else was when it was met
      refine hanchored.ends_bind fun j hj => ?_
      match r, hsettles with
      | .ok ty, hsettles => exact ends_conclude htree hheld hok hentry hsettles hj
      | .error .mismatch, hsettles =>
        refine (Tells.report value rfl).ends_bind fun k hk => ?_
        exact ends_conclude htree hheld hok hentry hsettles (hj.trans hk)
      | .error .reported, hsettles => exact ends_conclude htree hheld hok hentry hsettles hj

/-- What is held, is no choice and was not put together here is a name or stands in parentheses. -/
theorem Held.exists_group {expected : Option Ty} (h : Held p given scope s expected value inferred)
    (hok : inferred.isError = false) (hother : ∀ values, inferred ≠ .ofValues values)
    (hform : (p.source.expr value).isConstructor = false)
    (hname : ∀ source name, p.source.expr value ≠ .reference source name) :
    ∃ inner, p.source.expr value = .group inner := by
  cases h with
  | intro types hty parts _ _ =>
    cases hexpr : p.source.expr value with
    | group inner => exact ⟨inner, rfl⟩
    | reference source name => exact absurd hexpr (hname source name)
    | list | record =>
      rw [hexpr] at hform
      cases hform
    | missing | unsupported =>
      rw [hty, hexpr] at hok
      cases hok
    | literal literal =>
      rw [hexpr] at hty
      rw [hty] at hok hother
      obtain ⟨values, -, -, heq⟩ := literalTy_ok hok
      exact absurd heq (hother values)
    | binary op lhs rhs =>
      rw [hexpr] at hty
      rw [hty] at hok hother
      obtain ⟨ls, rs, -, -, -, heq⟩ := binaryTy_ok hok
      exact absurd heq (hother _)
    | unary op operand =>
      rw [hexpr] at hty parts
      rw [hty] at hok hother
      obtain ⟨rs, -, -, heq⟩ := unaryTy_ok (parts _ List.mem_cons_self).isOperand hok
      exact absurd heq (hother _)

end Settling

/-! ## Typing a constant -/

theorem Ty.isFirm_error : Ty.IsFirm .error := ⟨.error, fun h => (by cases h)⟩

theorem Settles.isFirm {lax : Bool} {inferred ty : Ty} (h : Settles lax inferred ty) : ty.IsFirm := by
  refine ⟨h.1, ?_⟩
  rintro rfl
  cases h.2

/-- What is erroneous is settled to an error only. -/
theorem Settles.isError {lax : Bool} {inferred ty : Ty} (h : Settles lax inferred ty)
    (herror : ty.isError = false) : inferred.isError = false := by
  have hrefines := h.2
  cases hrefines with
  | value _ _ => exact Ty.isError_ofValues _
  | tuple _ _ | record _ _ => rfl
  | error _ => cases herror

/-- What an operand is settled to can be an operand again. -/
theorem Settles.isOperand {lax : Bool} {inferred ty : Ty} (h : Settles lax inferred ty)
    (hinferred : inferred.IsOperand) : ty.IsOperand := by
  refine ⟨h.1.tentative, fun w hw => ?_⟩
  subst hw
  have hrefines := h.2
  generalize hresult : Ty.singleton w = result at hrefines
  cases hrefines with
  | @value values v r hr hrereads =>
    cases hresult
    obtain ⟨-, hcoherent, -⟩ := hinferred.readings (readingsOf?_ofValues values)
    exact hrereads.isCoherent (hcoherent r hr)
  | tuple _ _ | record _ _ | error _ => cases hresult

/-- What comes of typing a constant. -/
structure Typed (p : Program) (given : ConstId → Ty) (lax : Bool) (s : Checker) (constant : Constant)
    (ty : Ty) (t : Checker) : Prop where
  isFirm : ty.IsFirm
  isOperand : ty.IsOperand
  touches : Touches (p.source.Within constant.value) s t
  quiet : Distinct p.source t constant.value → Quiet s t
  committed : ty.isError = false → lax = false → Firm p given constant.scope constant.value →
    Committed p t constant.value

/-- **A constant is typed**: its value is evaluated, the type is settled and committed. -/
theorem ends_typing {p : Program} {given : ConstId → Ty} {lax : Bool} {s : Checker}
    {constant : Constant} (htree : p.source.Tree constant.value)
    (hsources : Sources p given constant.scope constant.value)
    (hready : Ready p given constant.scope s constant.value)
    (hdeclared : ∀ ty ∈ constant.declared,
      ty.everywhere (fun part => lax || part.isNoError) = true) :
    Ends (typing p (evaluate p) constant) s fun ty t => Typed p given lax s constant ty t := by
  obtain ⟨inferred, hevaluates⟩ := exists_evaluate htree hsources constant.declared
  refine (hevaluates s hready).bind ?_
  rintro _ t ⟨rfl, htouches, hquiet, hentry, hheld⟩
  refine (ends_settle htree hheld hentry hdeclared).mono fun ty u h => ?_
  have hwithin := htouches.trans (h.touches.mono fun _ he => he.within)
  refine ⟨?_, ?_, hwithin, fun hdistinct => ?_, fun herror hlax hfirm => ?_⟩
  · rcases h.settles with rfl | hsettles
    · exact Ty.isFirm_error
    · exact hsettles.isFirm
  · rcases h.settles with rfl | hsettles
    · exact .error
    · exact hsettles.isOperand hheld.isOperand
  · exact hquiet.trans (h.quiet (hdistinct.of_touches htree h.touches))
  · exact (h.achieved herror hlax hfirm).1

/-! ## One group after another -/

/-- **What the check of a forest has done after some groups.** The constants of these groups are
resolved and no others have been looked at. What is resolved leaves no choice and, with declared
types that hold no error, is committed. A violation is logged only if a record writes a computed key
twice. -/
structure Advance (p : Program) (lax : Bool) (done : List ConstGroup) (s : Checker) : Prop where
  resolved : ∀ group ∈ done, ∀ id ∈ group.members, ∃ ty, s.status.get? id = some (.resolved ty)
  untouched : ∀ id, (∀ group ∈ done, id ∉ group.members) → s.status.get? id = none
    ∧ ∀ constant, p.source.constants[id]? = some constant →
      ∀ e, p.source.Within constant.value e → s.exprTypes.get? e = none
  final : ∀ id ty, s.status.get? id = some (.resolved ty) → ty.IsFirm ∧ ty.IsOperand
  committed : ∀ id constant ty, p.source.constants[id]? = some constant →
    s.status.get? id = some (.resolved ty) → ty.isError = false → lax = false →
    Committed p s constant.value
  quiet : (∀ id constant ty, p.source.constants[id]? = some constant →
    s.status.get? id = some (.resolved ty) → Distinct p.source s constant.value) →
    ∀ v, .violated v ∉ s.journal.log.toList

/-- Nothing is changed that belongs to the constants of other groups. -/
def Spares (p : Program) (groups : List ConstGroup) (s s' : Checker) : Prop :=
  ∀ id, (∀ group ∈ groups, id ∉ group.members) → s'.status.get? id = s.status.get? id
    ∧ ∀ constant, p.source.constants[id]? = some constant → Agrees p.source constant.value s s'

theorem Spares.trans {p : Program} {first second : List ConstGroup} {s t u : Checker}
    (h : Spares p first s t) (h' : Spares p second t u) : Spares p (first ++ second) s u := by
  intro id hid
  rw [List.forall_mem_append] at hid
  obtain ⟨hstatus, hagrees⟩ := h id hid.1
  obtain ⟨hstatus', hagrees'⟩ := h' id hid.2
  exact ⟨hstatus'.trans hstatus, fun constant hconstant =>
    (hagrees constant hconstant).trans (hagrees' constant hconstant)⟩

theorem spares_group {p : Program} {group : ConstGroup} {s s' : Checker} (final : ConstId → Ty)
    (hstatus : ∀ id, s'.status.get? id
      = if id ∈ group.members then some (.resolved (final id)) else s.status.get? id)
    (hagrees : ∀ id constant, id ∉ group.members → p.source.constants[id]? = some constant →
      Agrees p.source constant.value s s') : Spares p [group] s s' := by
  intro id hid
  have hmem := hid group List.mem_cons_self
  exact ⟨(hstatus id).trans (if_neg hmem), fun constant hconstant => hagrees id constant hmem hconstant⟩

namespace Advance

variable {p : Program} {lax : Bool} {s s' : Checker} {done rest : List ConstGroup}
variable {group : ConstGroup}

/-- **One more group is done.** Nothing is touched in the values of other constants. -/
theorem extend (hnames : p.source.NamesExist) (hgroups : p.source.groups = done ++ group :: rest)
    (h : Advance p lax done s) (final : ConstId → Ty)
    (hstatus : ∀ id, s'.status.get? id
      = if id ∈ group.members then some (.resolved (final id)) else s.status.get? id)
    (hagrees : ∀ id constant, id ∉ group.members → p.source.constants[id]? = some constant →
      Agrees p.source constant.value s s')
    (hfinal : ∀ id ∈ group.members, (final id).IsFirm ∧ (final id).IsOperand)
    (hcommitted : ∀ id ∈ group.members, ∀ constant, p.source.constants[id]? = some constant →
      (final id).isError = false → lax = false → Committed p s' constant.value)
    (hquiet : (∀ id ∈ group.members, ∀ constant, p.source.constants[id]? = some constant →
      Distinct p.source s' constant.value) → Quiet s s') : Advance p lax (done ++ [group]) s' where
  resolved := fun other hother id hid => by
    rw [hstatus]
    split
    · exact ⟨_, rfl⟩
    · rename_i hmem
      rcases List.mem_append.mp hother with hother | hother
      · exact h.resolved other hother id hid
      · exact absurd (List.mem_singleton.mp hother ▸ hid) hmem
  untouched := fun id hid => by
    have hmem : id ∉ group.members := hid group (by simp)
    obtain ⟨hnone, hfresh⟩ := h.untouched id fun other hother => hid other (List.mem_append_left _ hother)
    rw [hstatus, if_neg hmem]
    refine ⟨hnone, fun constant hconstant e he => ?_⟩
    rw [(hagrees id constant hmem hconstant).types e he]
    exact hfresh constant hconstant e he
  final := fun id ty hty => by
    rw [hstatus] at hty
    split at hty
    · rename_i hmem
      cases hty
      exact hfinal id hmem
    · exact h.final id ty hty
  committed := fun id constant ty hconstant hty herror hlax => by
    rw [hstatus] at hty
    split at hty
    · rename_i hmem
      cases hty
      exact hcommitted id hmem constant hconstant herror hlax
    · rename_i hmem
      -- a constant of an earlier group: its value has not been touched since
      exact (h.committed id constant ty hconstant hty herror hlax).agrees
        (hagrees id constant hmem hconstant)
  quiet := fun hdistinct v hv => by
    refine h.quiet (fun id constant ty hconstant hty => ?_) v
      (hquiet (fun id hid constant hconstant => ?_) v hv)
    · -- a constant that was resolved before is in no later group
      have hmem : id ∉ group.members := fun hmem => by
        rw [(h.untouched id (not_mem_of_mem_done hnames hgroups hmem)).1] at hty
        cases hty
      have hnow := hdistinct id constant ty hconstant (by rw [hstatus, if_neg hmem]; exact hty)
      exact hnow.agrees (hagrees id constant hmem hconstant).symm
    · exact hdistinct id constant (final id) hconstant (by rw [hstatus, if_pos hid])

/-- What the names of a module stand for, once what they depend on is resolved. -/
theorem given (h : Advance p lax done s) (target : ConstId) :
    (s.given target).IsFirm ∧ (s.given target).IsOperand := by
  cases hstatus : s.status.get? target with
  | none =>
    rw [Checker.given, hstatus]
    exact ⟨Ty.isFirm_error, .error⟩
  | some status =>
    cases status with
    | resolving =>
      rw [Checker.given, hstatus]
      exact ⟨Ty.isFirm_error, .error⟩
    | resolved ty =>
      rw [given_eq hstatus]
      exact h.final target ty hstatus

end Advance

/-! ### What names stand for -/

/-- A program whose check is followed here. If erroneous types are not declared, the wildcard is not
named either. -/
structure Program.Regular (p : Program) (lax : Bool) : Prop where
  names : p.source.NamesExist
  forest : p.source.Forest
  declared : p.DeclaresOnly fun ty => lax || ty.isNoError
  imports : p.ImportsOnly (Ty.isConcrete Singleton.isProper)
  wildcard : lax = false → p.NoWildcard

section Naming

variable {p : Program} {lax : Bool} {s : Checker} {scope : ScopeId} {id : ExprId}

theorem Ty.isFirm_of_isConcrete {ok : Singleton → Bool} {ty : Ty} (h : ty.isConcrete ok = true) :
    ty.IsFirm := by
  refine ⟨definite_of_isConcrete h, ?_⟩
  rintro rfl
  cases h

theorem Ty.isOperand_of_isConcrete {ty : Ty} (h : ty.isConcrete Singleton.isProper = true) :
    ty.IsOperand := by
  refine ⟨(definite_of_isConcrete h).tentative, ?_⟩
  rintro v rfl
  exact Singleton.isCoherent_of_isProper h

theorem importedTy_isFirm (himports : p.ImportsOnly (Ty.isConcrete Singleton.isProper))
    (source name : String) :
    (importedTy p source name).IsFirm ∧ (importedTy p source name).IsOperand := by
  unfold importedTy
  split
  · exact ⟨Ty.isFirm_error, .error⟩
  · rename_i exports hexports
    split
    · rename_i ty hty
      have hconcrete := himports.lookup hexports hty
      exact ⟨Ty.isFirm_of_isConcrete hconcrete, Ty.isOperand_of_isConcrete hconcrete⟩
    · exact ⟨Ty.isFirm_error, .error⟩

theorem nameTy_isOperand {given : ConstId → Ty} (hgiven : ∀ target, (given target).IsOperand)
    (name : String) : (nameTy p given scope name).IsOperand := by
  unfold nameTy
  split
  · exact hgiven _
  · exact .error
  · exact ⟨.anydata, fun _ h => (by cases h)⟩
  · exact .error

theorem nameTy_isFirm {given : ConstId → Ty} (hgiven : ∀ target, (given target).IsFirm)
    {name : String} (hname : name ≠ Module.wildcardName) : (nameTy p given scope name).IsFirm := by
  unfold nameTy
  split
  · exact hgiven _
  · exact Ty.isFirm_error
  · rename_i hlookup
    rw [Module.lookup, if_neg hname] at hlookup
    split at hlookup <;> cases hlookup
  · exact Ty.isFirm_error

end Naming

namespace Advance

variable {p : Program} {lax : Bool} {s : Checker} {done rest : List ConstGroup} {group : ConstGroup}

theorem sources (hp : p.Regular lax) (h : Advance p lax done s) (scope : ScopeId) (id : ExprId) :
    Sources p s.given scope id where
  named := fun _ name _ _ => nameTy_isOperand (fun target => (h.given target).2) name
  imported := fun _ source name _ _ => (importedTy_isFirm hp.imports source name).2

theorem firm (hp : p.Regular lax) (hlax : lax = false) (h : Advance p lax done s) (scope : ScopeId)
    (id : ExprId) : Firm p s.given scope id where
  named := fun e _ _ hexpr =>
    nameTy_isFirm (fun target => (h.given target).1) fun hname =>
      hp.wildcard hlax e (hname ▸ hexpr)
  imported := fun _ source name _ _ => (importedTy_isFirm hp.imports source name).1

/-- When a constant is entered, nothing in its value has a type, and what it names is resolved. -/
theorem ready (hp : p.Regular lax) (hgroups : p.source.groups = done ++ group :: rest)
    (h : Advance p lax done s) (hcyclic : group.isCyclic = false) {id : ConstId}
    (hid : id ∈ group.members) {constant : Constant} (hconstant : p.source.constants[id]? = some constant) :
    s.status.get? id = none
      ∧ Ready p s.given constant.scope (s.enter id constant.name) constant.value := by
  obtain ⟨hnone, hfresh⟩ := h.untouched id (not_mem_of_mem_done hp.names hgroups hid)
  refine ⟨hnone, hfresh constant hconstant, fun e target he href => ?_⟩
  -- what is named was resolved with an earlier group
  have htree := hp.forest.tree (Array.mem_of_getElem? hconstant)
  have hdepends := (htree.founded.dependsOn_iff hconstant).mpr ⟨e, he, href⟩
  obtain ⟨other, hother, htarget⟩ := exists_done_of_dependsOn hp.names hgroups hcyclic hid hdepends
  obtain ⟨ty, hstatus⟩ := h.resolved other hother target htarget
  have hne : target ≠ id := by
    rintro rfl
    rw [hnone] at hstatus
    cases hstatus
  rw [status_enter, if_neg hne, hstatus, given_eq hstatus]

/-- **The constant of a group that is not cyclic is typed.** -/
theorem single (hp : p.Regular lax) (hgroups : p.source.groups = done ++ group :: rest)
    (h : Advance p lax done s) (hcyclic : group.isCyclic = false) :
    ∃ s', (resolveGroup p (resolve p) group).run s = some ((), s')
      ∧ Advance p lax (done ++ [group]) s' ∧ Spares p [group] s s' := by
  have hgroup : group ∈ p.source.groups := by rw [hgroups]; simp
  obtain ⟨id, hmembers⟩ := Module.members_eq_singleton hp.names hgroup hcyclic
  have hid : id ∈ group.members := by rw [hmembers]; simp
  obtain ⟨constant, hconstant⟩ : ∃ constant, p.source.constants[id]? = some constant :=
    ⟨_, Array.getElem?_eq_getElem (Module.lt_size_of_mem_group hp.names hgroup hid)⟩
  have hmem := Array.mem_of_getElem? hconstant
  have htree := hp.forest.tree hmem
  obtain ⟨hnone, hready⟩ := h.ready hp hgroups hcyclic hid hconstant
  obtain ⟨ty, t, hrun, htyped⟩ := ends_typing htree (h.sources hp constant.scope constant.value) hready
    (hp.declared constant hmem)
  refine ⟨t.leave id constant.name ty,
    run_resolveGroup_single hcyclic hmembers (run_resolveWith hnone hconstant hrun), ?_⟩
  -- the group has one member, so a fact about the members is one about `id`
  have honly : ∀ other ∈ group.members, other = id := fun other hother => by
    rw [hmembers] at hother
    exact List.mem_singleton.mp hother
  have hstatus : ∀ other, (t.leave id constant.name ty).status.get? other
      = if other ∈ group.members then some (.resolved ty) else s.status.get? other := by
    intro other
    simp only [hmembers, List.mem_singleton]
    exact status_leave_enter constant.name htyped.touches.status other
  -- values of other constants share no expression with this one
  have hagrees : ∀ other constant', other ∉ group.members →
      p.source.constants[other]? = some constant' →
      Agrees p.source constant'.value s (t.leave id constant.name ty) := by
    intro other constant' hother hconstant'
    have hapart : ∀ e, p.source.Within constant'.value e → ¬ p.source.Within constant.value e :=
      hp.forest.separate other id constant' constant hconstant' hconstant
        fun heq => hother (heq ▸ hid)
    have hkept := htyped.touches.agrees hapart
    exact ⟨hkept.types, hkept.signatures⟩
  refine ⟨h.extend hp.names hgroups (fun _ => ty) hstatus hagrees
    (fun _ _ => ⟨htyped.isFirm, htyped.isOperand⟩) ?_ ?_, spares_group (fun _ => ty) hstatus hagrees⟩
  · intro other hother constant' hconstant' herror hlax
    cases honly other hother
    cases hconstant.symm.trans hconstant'
    have hcommitted := htyped.committed herror hlax (h.firm hp hlax constant.scope constant.value)
    exact hcommitted.agrees ⟨fun _ _ => rfl, fun _ _ => rfl⟩
  -- entering and leaving log events, but no violation
  · intro hdistinct v hv
    have hlogged := (Journal.calm_concluded _ _ _).violations v hv
    have hentered := htyped.quiet (hdistinct id hid constant hconstant) v hlogged
    exact (Journal.calm_note _ fun _ heq => (by cases heq)).violations v hentered

/-- The constants of a cyclic group are erroneous, and their values are not looked at. -/
theorem cyclic (hp : p.Regular lax) (hgroups : p.source.groups = done ++ group :: rest)
    (h : Advance p lax done s) (hcyclic : group.isCyclic = true) :
    ∃ s', (resolveGroup p (resolve p) group).run s = some ((), s')
      ∧ Advance p lax (done ++ [group]) s' ∧ Spares p [group] s s'
      ∧ ∀ id ∈ group.members, s'.status.get? id = some (.resolved .error) := by
  have hgroup : group ∈ p.source.groups := by rw [hgroups]; simp
  have hlt := fun id => Module.lt_size_of_mem_group hp.names hgroup (a := id)
  obtain ⟨first, others, hfirst⟩ := Module.exists_first_member hp.names hgroup
  have hrun := run_refuseCycle hlt hfirst fun id hid =>
    (h.untouched id (not_mem_of_mem_done hp.names hgroups hid)).1
  refine ⟨_, by rw [resolveGroup, if_pos hcyclic, hrun], ?_⟩
  have hstatus := get?_foldl_insert group.members (.resolved .error) s.status
  refine ⟨h.extend hp.names hgroups (fun _ => .error) hstatus
    (fun _ _ _ _ => ⟨fun _ _ => rfl, fun _ _ => rfl⟩) (fun _ _ => ⟨Ty.isFirm_error, .error⟩)
    (fun _ _ _ _ herror => (by cases herror)) fun _ v hv => ?_,
    spares_group (fun _ => .error) hstatus fun _ _ _ _ => ⟨fun _ _ => rfl, fun _ _ => rfl⟩,
    fun id hid => (hstatus id).trans (if_pos hid)⟩
  exact (Journal.calm_note _ fun _ heq => (by cases heq)).violations v
    (Journal.violated_of_report _ _ hv)

/-- One group after another. -/
theorem forM (hp : p.Regular lax) {now later : List ConstGroup} :
    ∀ {done : List ConstGroup} {s : Checker}, p.source.groups = done ++ (now ++ later) →
    Advance p lax done s → ∃ s', (now.forM (resolveGroup p (resolve p))).run s = some ((), s')
      ∧ Advance p lax (done ++ now) s' ∧ Spares p now s s' := by
  induction now with
  | nil =>
    intro done s _ h
    exact ⟨s, rfl, by rwa [List.append_nil], fun _ _ => ⟨rfl, fun constant _ => .refl _ _ s⟩⟩
  | cons group now ih =>
    intro done s hgroups h
    obtain ⟨s₁, hrun, h₁, hspares₁⟩ : ∃ s₁, (resolveGroup p (resolve p) group).run s = some ((), s₁)
        ∧ Advance p lax (done ++ [group]) s₁ ∧ Spares p [group] s s₁ := by
      cases hcyclic : group.isCyclic with
      | false => exact h.single hp hgroups hcyclic
      | true =>
        obtain ⟨s₁, hrun, h₁, hspares, -⟩ := h.cyclic hp hgroups hcyclic
        exact ⟨s₁, hrun, h₁, hspares⟩
    rw [List.cons_append, ← List.singleton_append, ← List.append_assoc] at hgroups
    obtain ⟨s₂, hrun₂, h₂, hspares₂⟩ := ih hgroups h₁
    rw [List.append_assoc, List.singleton_append] at h₂
    exact ⟨s₂, (run_bind_some hrun).trans hrun₂, h₂, hspares₁.trans hspares₂⟩

end Advance

theorem advance_begin (p : Program) (lax : Bool) : Advance p lax [] (.begin p) := by
  refine ⟨fun _ h => (by cases h), fun _ _ => ⟨rfl, fun _ _ _ _ => rfl⟩, fun _ _ h => (by cases h),
    fun _ _ _ _ h => (by cases h), fun _ v hv => ?_⟩
  have hcalm := Journal.calm_note .empty (e := p.source.groupingEvent) fun _ heq => (by cases heq)
  cases hcalm.violations v hv

/-- **The check of a forest comes to an end**, with all groups done. -/
theorem exists_advance {p : Program} {lax : Bool} (hp : p.Regular lax) :
    ∃ s, p.run = some s ∧ p.check = some s.finish ∧ Advance p lax p.source.groups s := by
  have hgroups : p.source.groups = [] ++ (p.source.groups ++ []) := by simp
  obtain ⟨s, hrun, h, -⟩ := (advance_begin p lax).forM hp hgroups
  have hstate := Program.run_eq hrun
  exact ⟨s, hstate, by rw [Program.check, hstate]; rfl, h⟩

end ConstNarrow
